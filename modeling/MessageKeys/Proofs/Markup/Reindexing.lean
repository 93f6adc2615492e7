import MessageKeys.Markup.Reindexing
import MessageKeys.Proofs.Markup.Extraction
import MessageKeys.Proofs.Markup.Exchange

/-!
# Re-indexing part by part

The duplicate keys are numbered one after the other, and as long as no tag takes in an end mark the
parts keep their places. So re-indexing leaves no duplicate key without an opening mark in it; and
where the tags of the duplicate keys stand only in front of messages, it changes keys only.
-/
namespace MessageKeys.Markup

variable {document key : Text} {keys taken : List Text}

theorem Part.Numbered.refl (part : Part) : part.Numbered [] part :=
  ⟨rfl, fun _ => rfl, id, fun _ _ => .rfl⟩

theorem Part.Numbered.cons {new mid old : Part} (h : Part.Numbered keys new mid)
    (hm : Part.Numbered [key] mid old) : Part.Numbered (key :: keys) new old where
  before := h.before.trans hm.before
  body hb := by
    have he : mid.body = old.body := hm.body fun other ho => hb other (by simp [List.mem_singleton.mp ho])
    exact (h.body fun other ho => he ▸ hb other (List.mem_cons_of_mem _ ho)).trans he
  wellFormed hw := h.wellFormed (hm.wellFormed hw)
  stop other ho := (h.stop other ho).trans (hm.stop other ho)

/-- No tag of the keys takes in the end mark of a part. -/
structure Layout.Bounded (keys : List Text) (layout : Layout) : Prop where
  wellFormed : layout.WellFormed
  bracket : ∀ key ∈ keys, ']' ∉ key
  stop : ∀ key ∈ keys, ∀ part ∈ layout.parts, ¬ tag key <:+ part.body ++ endMark

namespace Layout.Bounded

variable {layout : Layout}

/-- Numbering the first key keeps the parts in their places, and their ends for the other keys. -/
theorem renumber (h : layout.Bounded (key :: keys)) (taken : List Text) :
    ∃ renumbered : Layout,
      (Markup.renumber key taken 0 layout.toText).document = renumbered.toText ∧
      renumbered.Bounded keys ∧
      Numbers key 0 taken (Markup.renumber key taken 0 layout.toText).taken
        (layout.parts.map Part.key) (renumbered.parts.map Part.key) ∧
      List.Forall₂ (Part.Numbered [key]) renumbered.parts layout.parts := by
  have hk := h.bracket key (by simp)
  obtain ⟨after, last, hdoc, hnumbers, hparts, htail⟩ :=
    renumber_toText hk layout.tail h.wellFormed.parts (h.stop key (by simp)) taken 0
  refine ⟨⟨after, last⟩, hdoc, ⟨⟨fun part hp => ?_, fun hf => ?_⟩, ?_, ?_⟩, hnumbers, hparts⟩
  · obtain ⟨old, ho, hn⟩ := exists_of_forall₂ hparts hp
    exact hn.wellFormed (h.wellFormed.parts old ho)
  · exact h.wellFormed.tail (htail.finished (soundRetagging_derived hk) hf)
  · exact fun other ho => h.bracket other (List.mem_cons_of_mem key ho)
  · intro other ho part hp
    obtain ⟨old, hold, hn⟩ := exists_of_forall₂ hparts hp
    have ho := List.mem_cons_of_mem key ho
    exact fun hs => h.stop other ho old hold ((hn.stop other (h.bracket other ho)).mp hs)

/-- Numbering all keys keeps the parts in their places. -/
theorem renumberAll (h : layout.Bounded keys) (taken : List Text) (updates : KeyUpdates) :
    ∃ renumbered : Layout,
      (Markup.renumberAll keys taken layout.toText updates).1 = renumbered.toText ∧
      renumbered.WellFormed ∧
      (∃ later, NumbersAll keys taken later (layout.parts.map Part.key)
        (renumbered.parts.map Part.key)) ∧
      List.Forall₂ (Part.Numbered keys) renumbered.parts layout.parts := by
  induction keys generalizing taken layout updates with
  | nil =>
    refine ⟨layout, rfl, h.wellFormed, ⟨taken, .nil (List.Subset.refl _) _⟩, ?_⟩
    exact List.forall₂_same.mpr fun part _ => .refl part
  | cons key keys ih =>
    obtain ⟨step, hdoc, hstep, hnumbers, hparts⟩ := h.renumber taken
    rw [Markup.renumberAll, hdoc]
    obtain ⟨renumbered, hall, hw, ⟨later, hrest⟩, hmore⟩ := ih hstep _ _
    refine ⟨renumbered, hall, hw, ⟨later, .cons hnumbers hrest⟩, ?_⟩
    exact forall₂_comp (fun _ _ _ hmore hstep => hmore.cons hstep) hmore hparts

end Layout.Bounded

/-- The keys of the document and its duplicates are what a re-indexing starts from. -/
theorem numberable_scan (document : Text) :
    Numberable (scan document).duplicates (scan document).messages.keys
      ((Layout.ofText document).parts.map Part.key) where
  olds _ hn := mem_keys_messages_scan.mpr (List.mem_map.mp hn)
  listed _ hk := mem_keys_messages_scan.mpr (mem_keys_of_mem_duplicates hk)
  duplicate _ hc := mem_duplicates_scan.mpr hc

/-- Where no tag takes in an end mark, re-indexing numbers the keys of the parts in their places. -/
theorem reindex_numbers
    (hs : ∀ key ∈ (scan document).duplicates, ∀ part ∈ (Layout.ofText document).parts,
      ¬ tag key <:+ part.body ++ endMark) :
    let reindexed := reindex document (scan document).messages (scan document).duplicates
    (∃ later, NumbersAll (scan document).duplicates (scan document).messages.keys later
      ((Layout.ofText document).parts.map Part.key)
      ((Layout.ofText reindexed.document).parts.map Part.key)) ∧
    List.Forall₂ (Part.Numbered (scan document).duplicates)
      (Layout.ofText reindexed.document).parts (Layout.ofText document).parts := by
  intro reindexed
  have hw := Layout.wellFormed_ofText document
  have hbounded : (Layout.ofText document).Bounded (scan document).duplicates :=
    ⟨hw, fun _ => bracket_not_mem_duplicate, hs⟩
  obtain ⟨renumbered, hdoc, hw, hnumbers, hparts⟩ :=
    hbounded.renumberAll (scan document).messages.keys .empty
  rw [Layout.toText_ofText] at hdoc
  have hlayout : Layout.ofText reindexed.document = renumbered := by
    change Layout.ofText (renumberAll _ _ document .empty).1 = renumbered
    rw [hdoc, Layout.ofText_toText hw]
  rw [hlayout]
  exact ⟨hnumbers, hparts⟩

/-- The same part under its key, or under a name derived from it that holds no opening mark. -/
structure Part.Renewed (new old : Part) : Prop where
  before : new.before = old.before
  body : new.body = old.body
  key : new.key = old.key ∨ Derived old.key new.key ∧ ¬ openMark <:+: new.key

namespace Part.Renewed

variable {a b : Part}

theorem refl (part : Part) : part.Renewed part :=
  ⟨rfl, rfl, .inl rfl⟩

theorem text (h : a.Renewed b) : a.text = b.text :=
  congrArg Text.trim h.body

theorem avoids (h : a.Renewed b) (ha : b.Avoids key) : a.Avoids key := by
  refine ⟨?_, h.body ▸ ha.body⟩
  rcases h.key with hk | ⟨-, ho⟩
  · exact hk ▸ ha.key
  · exact fun hs => ho ((List.prefix_append _ _).isInfix.trans hs.isInfix)

theorem wellFormed (h : a.Renewed b) (hw : b.WellFormed) : a.WellFormed := by
  refine ⟨h.before ▸ hw.before, ?_, h.body ▸ hw.body⟩
  rcases h.key with hk | ⟨hk, -⟩
  · exact hk ▸ hw.key
  · exact hk.bracket hw.key

end Part.Renewed

/-- Where the tags of duplicate keys stand only in front of messages, re-indexing changes keys only,
and no two parts share a key afterwards. -/
theorem ofText_reindex
    (ho : ∀ key ∈ (scan document).duplicates, ¬ openMark <:+: key)
    (ha : ∀ key ∈ (scan document).duplicates, ∀ part ∈ (Layout.ofText document).parts,
      part.Avoids key) :
    let reindexed := reindex document (scan document).messages (scan document).duplicates
    ((Layout.ofText reindexed.document).parts.map Part.key).Nodup ∧
      List.Forall₂ Part.Renewed (Layout.ofText reindexed.document).parts
        (Layout.ofText document).parts := by
  intro reindexed
  obtain ⟨⟨later, hnumbers⟩, hparts⟩ := reindex_numbers fun key hk part hp hs =>
    (ha key hk part hp).body hs.isInfix
  have hstart := numberable_scan document
  obtain ⟨given, hex, hgiven⟩ := hnumbers.exchanged ho hstart.listed
  have hplaces := hex.places
  rw [List.forall₂_map_left_iff, List.forall₂_map_right_iff] at hplaces
  have hrenewed : List.Forall₂ Part.Renewed (Layout.ofText reindexed.document).parts
      (Layout.ofText document).parts := by
    refine (forall₂_and hparts hplaces).imp ?_
    rintro new old ⟨hold, hn, hplace⟩
    refine ⟨hn.before, hn.body fun key hk hi => ?_, hplace.imp_right fun h => ?_⟩
    · exact (ha key hk old hold).body (hi.trans (List.prefix_append _ _).isInfix)
    · obtain ⟨-, ⟨key, hk, hb⟩, hd⟩ := h
      have he : key = old.key := (bears_iff.mp hb).resolve_right (ha key hk old hold).key
      exact ⟨hd, hd.openMark (he ▸ ho key hk)⟩
  refine ⟨(hstart.nodup_iff_places ho hnumbers).mpr ?_, hrenewed⟩
  rw [List.forall₂_map_left_iff, List.forall₂_map_right_iff]
  refine (forall₂_and hplaces hrenewed).imp ?_
  rintro new old ⟨-, hsame | ⟨hnew, -, -⟩, hr⟩
  · exact .inl hsame
  · refine hr.key.imp_right fun hplain hm => ?_
    obtain ⟨name, hb, -, ht⟩ := hgiven _ hnew
    exact ht (hb.eq_of_plain hplain.2 ▸ hstart.olds hm)

/-- Re-indexing settles the keys as long as no tag of a duplicate key takes in an end mark. A key that
is a duplicate afterwards holds an opening mark, so there is none if no key holds one. If the
duplicate keys hold none, there is none afterwards exactly if each span has its old key or one that
no span had. -/
theorem reindex_keys_unique (document : Text)
    (hs : ∀ key ∈ (scan document).duplicates, ∀ part ∈ (Layout.ofText document).parts,
      ¬ tag key <:+ part.body ++ endMark) :
    let reindexed := reindex document (scan document).messages (scan document).duplicates
    (∀ key ∈ (scan reindexed.document).duplicates, openMark <:+: key) ∧
    ((∀ span ∈ spans document, ¬ openMark <:+: span.key) →
      (scan reindexed.document).duplicates = []) ∧
    ((∀ key ∈ (scan document).duplicates, ¬ openMark <:+: key) →
      ((scan reindexed.document).duplicates = [] ↔
        List.Forall₂ (fun new old =>
            new.key = old.key ∨ new.key ∉ (spans document).map Span.key)
          (spans reindexed.document) (spans document))) := by
  intro reindexed
  obtain ⟨⟨later, hnumbers⟩, -⟩ := reindex_numbers hs
  have hstart := numberable_scan document
  have hplaces (ho : ∀ key ∈ (scan document).duplicates, ¬ openMark <:+: key) :
      (scan reindexed.document).duplicates = [] ↔
        List.Forall₂ (fun new old =>
            new.key = old.key ∨ new.key ∉ (spans document).map Span.key)
          (spans reindexed.document) (spans document) := by
    rw [duplicates_scan_eq_nil_iff, hstart.nodup_iff_places ho hnumbers, map_key_spans,
      ← map_key_spans reindexed.document, ← map_key_spans document, List.forall₂_map_left_iff,
      List.forall₂_map_right_iff]
  have hmarked : ∀ key ∈ (scan reindexed.document).duplicates, openMark <:+: key := by
    intro key hd
    apply Classical.byContradiction
    intro hp
    have hone := List.nodup_iff_count.mp (hstart.nodup_plain hnumbers) key
    rw [List.count_filter (by simpa using hp)] at hone
    exact Nat.not_lt.mpr hone (mem_duplicates_scan.mp hd)
  refine ⟨hmarked, fun ho => ?_, hplaces⟩
  have hold : ∀ key ∈ (Layout.ofText document).parts.map Part.key, Plain key := by
    rw [← map_key_spans]
    exact List.forall_mem_map.mpr ho
  have hplain : ∀ key ∈ (scan document).duplicates, Plain key := fun key hk =>
    hold key (List.mem_map.mpr (mem_keys_of_mem_duplicates hk))
  obtain ⟨given, hex, -⟩ := hnumbers.exchanged hplain hstart.listed
  refine List.eq_nil_iff_forall_not_mem.mpr fun key hd => ?_
  obtain ⟨old, hm, hr⟩ :=
    exists_of_forall₂ hex.places (List.mem_map.mpr (mem_keys_of_mem_duplicates hd))
  rcases hr with rfl | ⟨-, -, hr⟩
  · exact hold key hm (hmarked key hd)
  · exact hr.openMark (hold old hm) (hmarked key hd)

theorem reindex_keys_unique_bracketed :
    let document := "[msg:a]x[/msg][msg:b[msg:a]y[/msg][msg:a]z[/msg]".toList
    let reindexed := reindex document (scan document).messages (scan document).duplicates
    (∀ key ∈ (scan document).duplicates, ∀ part ∈ (Layout.ofText document).parts,
        ¬ tag key <:+ part.body ++ endMark) ∧
      ((scan reindexed.document).duplicates = [] ↔
        List.Forall₂ (fun new old =>
            new.key = old.key ∨ new.key ∉ (spans document).map Span.key)
          (spans reindexed.document) (spans document)) := by
  intro document reindexed
  have hs : ∀ key ∈ (scan document).duplicates, ∀ part ∈ (Layout.ofText document).parts,
      ¬ tag key <:+ part.body ++ endMark := by decide +kernel
  exact ⟨hs, (reindex_keys_unique document hs).2.2 (by decide +kernel)⟩

/-- The number that is new for one key makes a name that is not new for another; and the numbers of
one key make the end mark of a message part of a tag. -/
theorem reindex_leaves_duplicates :
    let reindexed (document : Text) :=
      reindex document (scan document).messages (scan document).duplicates
    let nested :=
      "[msg:x[msg:A]a[/msg][msg:A]b[/msg][msg:A]c[/msg][msg:x[msg:A_0]d[/msg]".toList
    let taking := ("[msg:z[/msg]a[/msg][msg:z[/msg]b[/msg][msg:q]u[msg:z[/msg][msg:w[/msg]t" ++
      "[msg:n]s[/msg][msg:n]r[/msg]").toList
    (scan (reindexed nested).document).duplicates = ["x[msg:A_0".toList] ∧
      (scan (reindexed taking).document).duplicates = ["n".toList] := by
  decide +kernel

end MessageKeys.Markup
