import MessageKeys.Markup.Preparation
import MessageKeys.Proofs.Text.Blank
import MessageKeys.Proofs.Markup.Consolidation
import MessageKeys.Proofs.Markup.Reindexing

/-!
# What a prepared document says

Re-indexing settles the keys; consolidation then rewrites the settled document and its messages
apart from each other. Where no tag of a key that changes stands in a message, document and
messages stay in step, and the prepared document says what the original one said.
-/
namespace MessageKeys.Markup

open OrderedMap (last?)

variable {document key : Text} {reindexing : Bool}

/-- The document that consolidation works on: re-indexed, if that was wanted and there was any
duplicate key. -/
def settled (document : Text) (reindexing : Bool) : Text :=
  if reindexing && !(scan document).duplicates.isEmpty then
    (reindex document (scan document).messages (scan document).duplicates).document
  else document

theorem prepare_duplicates (document : Text) (reindexing : Bool) :
    (prepare document reindexing).duplicates = (scan document).duplicates := by
  simp only [prepare]
  split <;> rfl

theorem prepare_messages (document : Text) (reindexing : Bool) :
    (prepare document reindexing).messages =
      (consolidate (scan (settled document reindexing)).messages
        (settled document reindexing)).messages := by
  simp only [prepare, settled]
  split <;> rfl

theorem prepare_consolidated (document : Text) (reindexing : Bool) :
    (prepare document reindexing).consolidated =
      consolidationMap (scan (settled document reindexing)).messages := by
  simp only [prepare, settled]
  split <;> rfl

theorem prepare_document (document : Text) (reindexing : Bool) :
    (prepare document reindexing).document =
      replaceTags (prepare document reindexing).consolidated (settled document reindexing) := by
  rw [prepare_consolidated]
  simp only [prepare, settled]
  split <;> rfl

/-- Where no key stands twice, the answer to the question about it means nothing. -/
theorem prepare_of_no_duplicates (h : (scan document).duplicates = []) (reindexing : Bool) :
    prepare document reindexing = prepare document true := by
  simp [prepare, h]

theorem soundRenaming_prepare (document : Text) (reindexing : Bool) :
    SoundRenaming (prepare document reindexing).consolidated := by
  rw [prepare_consolidated]
  refine soundRenaming_consolidationMap fun key hk => ?_
  obtain ⟨part, hp, rfl⟩ := mem_keys_messages_scan.mp hk
  exact ((Layout.wellFormed_ofText _).parts part hp).key

/-- The messages are found under the new names of the settled keys. -/
theorem mem_keys_prepare :
    key ∈ (prepare document reindexing).messages.keys ↔
      ∃ part ∈ (Layout.ofText (settled document reindexing)).parts,
        renamed (prepare document reindexing).consolidated part.key = key := by
  rw [prepare_messages, keys_messages_consolidate, OrderedMap.mem_firsts, List.mem_map,
    prepare_consolidated]
  constructor
  · rintro ⟨old, ho, rfl⟩
    obtain ⟨part, hp, rfl⟩ := mem_keys_messages_scan.mp ho
    exact ⟨part, hp, rfl⟩
  · rintro ⟨part, hp, rfl⟩
    exact ⟨part.key, mem_keys_messages_scan.mpr ⟨part, hp, rfl⟩, rfl⟩

/-- Consolidation leaves the parts of the settled document in their places, under the new names of
their keys, exactly if its replacement is in step with them; the references and the messages then
have the same keys. If it only leaves the end marks, they have the same keys exactly if the keys of
the rewritten opening tags are the new names. -/
theorem prepare_keys_agree (document : Text) (reindexing : Bool) :
    let prepared := prepare document reindexing
    let parts := (Layout.ofText (settled document reindexing)).parts
    let agree := ∀ key, key ∈ (spans prepared.document).map Span.key ↔ key ∈ prepared.messages.keys
    ((Layout.ofText prepared.document).parts = parts.map (Part.replaced prepared.consolidated) ↔
        ∀ part ∈ parts, part.InStep prepared.consolidated) ∧
      ((∀ part ∈ parts, part.InStep prepared.consolidated) → agree) ∧
      ((∀ part ∈ parts, part.KeepsEnd prepared.consolidated) →
        (agree ↔ ∀ key, (∃ part ∈ parts, rewrittenKey prepared.consolidated part.key = key) ↔
          ∃ part ∈ parts, renamed prepared.consolidated part.key = key)) := by
  intro prepared parts agree
  have hsound := soundRenaming_prepare document reindexing
  have hiff := parts_replaceTags_iff hsound (settled document reindexing)
  rw [← prepare_document] at hiff
  have hends (h : ∀ part ∈ parts, part.KeepsEnd prepared.consolidated) :
      agree ↔ ∀ key, (∃ part ∈ parts, rewrittenKey prepared.consolidated part.key = key) ↔
        ∃ part ∈ parts, renamed prepared.consolidated part.key = key := by
    have hparts := congrArg Layout.parts (ofText_replaceTags hsound h)
    rw [← prepare_document] at hparts
    refine forall_congr' fun key => ?_
    rw [map_key_spans, hparts, List.map_map, mem_keys_prepare, List.mem_map]
    rfl
  refine ⟨hiff, fun hs => ?_, hends⟩
  refine (hends fun part hp => (hs part hp).stop).mpr fun key => ?_
  refine exists_congr fun part => and_congr_right fun hp => ?_
  rw [rewrittenKey_of_replaceTags (hs part hp).key]

theorem prepare_keys_agree_nested :
    let prepared := prepare "[msg:a]u[/msg][msg:b]u[/msg][msg:c]see [msg:a] here[/msg]".toList true
    ∀ key, key ∈ (spans prepared.document).map Span.key ↔ key ∈ prepared.messages.keys :=
  (prepare_keys_agree _ _).2.1 (by decide +kernel)

/-- A tag within the key of a part is taken for the tag of a remapped key. -/
theorem prepare_keys_differ :
    let document := "[msg:x[msg:a]t[/msg][msg:a]u[/msg][msg:b]u[/msg]".toList
    "x[msg:a_multi".toList ∈ (spans (prepare document true).document).map Span.key ∧
      "x[msg:a_multi".toList ∉ (prepare document true).messages.keys := by
  decide +kernel

/-- No marked part holds the tag of a key that re-indexing or consolidation replaces but as its
opening tag, and no key to be re-indexed holds an opening mark. -/
structure Apart (document : Text) (reindexing : Bool) : Prop where
  openMark : ∀ key ∈ (prepare document reindexing).duplicates, ¬ openMark <:+: key
  avoids : ∀ key ∈ (prepare document reindexing).duplicates ++
      (prepare document reindexing).consolidated.keys,
    ∀ part ∈ (Layout.ofText document).parts, part.Avoids key

namespace Apart

theorem reindexed (h : Apart document reindexing) :
    let reindexed := reindex document (scan document).messages (scan document).duplicates
    ((Layout.ofText reindexed.document).parts.map Part.key).Nodup ∧
      List.Forall₂ Part.Renewed (Layout.ofText reindexed.document).parts
        (Layout.ofText document).parts := by
  obtain ⟨ho, ha⟩ := h
  rw [prepare_duplicates] at ho ha
  exact ofText_reindex ho fun key hk => ha key (List.mem_append_left _ hk)

/-- Re-indexing numbers the keys of the parts in their places. -/
theorem numbers (h : Apart document reindexing) :
    let reindexed := reindex document (scan document).messages (scan document).duplicates
    ∃ later, NumbersAll (scan document).duplicates (scan document).messages.keys later
      ((Layout.ofText document).parts.map Part.key)
      ((Layout.ofText reindexed.document).parts.map Part.key) :=
  (reindex_numbers fun key hk part hp hs =>
    (h.avoids key (List.mem_append_left _ (by rwa [prepare_duplicates])) part hp).body hs.isInfix).1

theorem renewed (h : Apart document reindexing) :
    List.Forall₂ Part.Renewed (Layout.ofText (settled document reindexing)).parts
      (Layout.ofText document).parts := by
  unfold settled
  split
  · exact h.reindexed.2
  · exact List.forall₂_same.mpr fun part _ => .refl part

/-- Re-indexed or without duplicates to begin with, the settled document has none. -/
theorem nodup (h : Apart document reindexing)
    (hs : reindexing = true ∨ (scan document).duplicates = []) :
    ((Layout.ofText (settled document reindexing)).parts.map Part.key).Nodup := by
  unfold settled
  split
  · exact h.reindexed.1
  · next hc =>
    refine duplicates_scan_eq_nil_iff.mp ?_
    rcases hs with rfl | hs
    · simpa using hc
    · exact hs

theorem avoids_settled (h : Apart document reindexing) :
    ∀ part ∈ (Layout.ofText (settled document reindexing)).parts,
      ∀ key ∈ (prepare document reindexing).consolidated.keys, part.Avoids key := by
  intro part hp key hk
  obtain ⟨old, ho, hr⟩ := exists_of_forall₂ h.renewed hp
  exact hr.avoids (h.avoids key (List.mem_append_right _ hk) old ho)

theorem parts_prepare (h : Apart document reindexing) :
    (Layout.ofText (prepare document reindexing).document).parts =
      (Layout.ofText (settled document reindexing)).parts.map fun part =>
        { part with key := renamed (prepare document reindexing).consolidated part.key } := by
  have hsound := soundRenaming_prepare document reindexing
  have hw := Layout.wellFormed_ofText (settled document reindexing)
  have hstep : ∀ part ∈ (Layout.ofText (settled document reindexing)).parts,
      part.InStep (prepare document reindexing).consolidated := by
    intro part hp
    exact Part.Avoids.inStep (h.avoids_settled part hp) (hw.parts part hp).key
      hsound.bracket_not_mem_keys
  rw [prepare_document, (parts_replaceTags_iff hsound _).mpr hstep]
  refine List.map_congr_left fun part hp => ?_
  rw [Part.replaced, Part.Avoids.replaceTags_body (h.avoids_settled part hp)]

/-- The messages are those of the prepared document. -/
theorem messages_prepare (h : Apart document reindexing) :
    (prepare document reindexing).messages = (scan (prepare document reindexing).document).messages := by
  rw [prepare_messages, messages_scan, messages_scan, messages_consolidate_ofList, h.parts_prepare,
    ← messages_scan, ← prepare_consolidated, List.map_map, List.map_map]
  rfl

/-- A renamed key has the message that the settled document gives it. -/
theorem get?_prepare {part : Part} (hp : part ∈ (Layout.ofText (settled document reindexing)).parts) :
    (prepare document reindexing).messages.get?
        (renamed (prepare document reindexing).consolidated part.key) =
      last? part.key ((Layout.ofText (settled document reindexing)).parts.map Part.entry) := by
  rw [prepare_messages, prepare_consolidated,
    get?_messages_consolidate _ (mem_keys_messages_scan.mpr ⟨part, hp, rfl⟩), get?_messages_scan]

theorem get?_prepare_of_nodup
    (hn : ((Layout.ofText (settled document reindexing)).parts.map Part.key).Nodup) {part : Part}
    (hp : part ∈ (Layout.ofText (settled document reindexing)).parts) :
    (prepare document reindexing).messages.get?
        (renamed (prepare document reindexing).consolidated part.key) = some part.text := by
  rw [get?_prepare hp, ← get?_messages_scan, get?_messages_scan_of_nodup hn hp]

/-- Part by part, the prepared document says what the original one said. Where duplicates were
left alone, a key says what it said last. -/
theorem forall₂_parts (h : Apart document reindexing) :
    List.Forall₂ (fun new old => new.before = old.before ∧ new.text = old.text ∧
        (prepare document reindexing).messages.get? new.key =
          if reindexing = true ∨ (scan document).duplicates = [] then some old.text
          else last? old.key ((Layout.ofText document).parts.map Part.entry))
      (Layout.ofText (prepare document reindexing).document).parts
      (Layout.ofText document).parts := by
  rw [h.parts_prepare, List.forall₂_map_left_iff]
  by_cases hs : reindexing = true ∨ (scan document).duplicates = []
  · have hget : ∀ part ∈ (Layout.ofText (settled document reindexing)).parts,
        (prepare document reindexing).messages.get?
          (renamed (prepare document reindexing).consolidated part.key) = some part.text :=
      fun part hp => get?_prepare_of_nodup (h.nodup hs) hp
    refine ((List.forall₂_and_left _ _).mpr ⟨hget, h.renewed⟩).imp ?_
    rintro new old ⟨hg, hr⟩
    refine ⟨hr.before, hr.text, ?_⟩
    rw [if_pos hs, ← hr.text]
    exact hg
  · have hsame : settled document reindexing = document := by
      rw [settled, if_neg]
      intro hc
      exact hs (.inl (Bool.and_eq_true_iff.mp hc).1)
    have hget := @get?_prepare document reindexing
    rw [hsame] at hget ⊢
    refine List.forall₂_same.mpr fun part hp => ⟨rfl, rfl, ?_⟩
    rw [if_neg hs]
    exact hget hp

/-- The same for the spans, which carry keys and texts. -/
theorem forall₂_spans (h : Apart document reindexing) :
    List.Forall₂ (fun new old => new.text = old.text ∧
        (prepare document reindexing).messages.get? new.key =
          if reindexing = true ∨ (scan document).duplicates = [] then some old.text
          else last? old.key ((spans document).map fun span => (span.key, span.text)))
      (spans (prepare document reindexing).document) (spans document) := by
  have hiff := @forall₂_spans_iff (fun new old => new.2 = old.2 ∧
    (prepare document reindexing).messages.get? new.1 =
      if reindexing = true ∨ (scan document).duplicates = [] then some old.2
      else last? old.1 ((spans document).map fun span => (span.key, span.text)))
  refine hiff.mpr ?_
  rw [map_entry_spans]
  exact h.forall₂_parts.imp fun new old hr => hr.2

/-- What new names take over from the keys that they are made from, all keys of the messages have. -/
theorem forall_keys (h : Apart document reindexing) {P : Text → Prop}
    (hnumbered : ∀ name index, P name → P (numbered name index))
    (hmulti : ∀ name index, P name → P (numberedMulti name index))
    (hp : ∀ part ∈ (Layout.ofText document).parts, P part.key) :
    ∀ key ∈ (prepare document reindexing).messages.keys, P key := by
  have hsettled : ∀ part ∈ (Layout.ofText (settled document reindexing)).parts, P part.key := by
    unfold settled
    split
    · obtain ⟨later, hnumbers⟩ := h.numbers
      exact List.forall_mem_map.mp
        (hnumbers.forall_mem hnumbered (List.forall_mem_map.mpr hp))
    · exact hp
  intro key hk
  obtain ⟨part, hpart, rfl⟩ := mem_keys_prepare.mp hk
  rw [prepare_consolidated, renamed, get?_consolidationMap]
  cases hn : ((scan (settled document reindexing)).messages.get? part.key).bind
      (sharedNames (scan (settled document reindexing)).messages).get? with
  | none => exact hsettled part hpart
  | some new =>
    obtain ⟨value, -, hv⟩ := Option.bind_eq_some_iff.mp hn
    obtain ⟨first, hf, index, rfl⟩ := eq_numberedMulti_of_sharedNames hv
    obtain ⟨owner, ho, rfl⟩ := mem_keys_messages_scan.mp (OrderedMap.mem_keys_of_get? hf)
    exact hmulti _ index (hsettled owner ho)

end Apart

theorem openMark_absent_append_endMark {body : Text} (h : ¬ openMark <:+: body) :
    ¬ openMark <:+: body ++ endMark := by
  have hclear : Text.Clear openMark body endMark := Text.clear_of_head h fun c hc => by
    obtain rfl := Option.some.inj ((head?_endMark_append []).symm.trans hc)
    decide
  rw [Text.infix_append_iff_of_clear hclear]
  decide

/-- Keys without brackets and texts without opening marks are told apart from tags. -/
theorem apart_of_spans (hk : ∀ span ∈ spans document, '[' ∉ span.key)
    (ht : ∀ span ∈ spans document, ¬ openMark <:+: span.text) : Apart document reindexing := by
  have hspan {part : Part} (hp : part ∈ (Layout.ofText document).parts) :
      ∃ span ∈ spans document, (span.key, span.text) = part.entry := by
    have hm : part.entry ∈ (Layout.ofText document).parts.map Part.entry := List.mem_map_of_mem hp
    rw [← map_entry_spans] at hm
    exact List.mem_map.mp hm
  have hkey {part : Part} (hp : part ∈ (Layout.ofText document).parts) : '[' ∉ part.key := by
    obtain ⟨span, hs, he⟩ := hspan hp
    exact (Prod.mk.inj he).1 ▸ hk span hs
  constructor
  · intro key hd hi
    rw [prepare_duplicates] at hd
    obtain ⟨part, hp, rfl⟩ := mem_keys_of_mem_duplicates hd
    exact hkey hp (hi.subset (by decide))
  · intro key _ part hp
    refine ⟨fun hs => hkey hp (hs.subset (List.mem_append_left _ (by decide))), fun hi => ?_⟩
    obtain ⟨span, hs, he⟩ := hspan hp
    refine openMark_absent_append_endMark ?_ ((openMark_prefix_tag key).isInfix.trans hi)
    intro hb
    refine ht span hs ?_
    rw [(Prod.mk.inj he).2]
    exact (Text.infix_trim_iff openMark_ne_nil fun _ => not_blank_of_mem_openMark).mpr hb

/-- Whatever the answer to the question about duplicates, a prepared document has the spans of the
original one with their texts and the plain text in front of them; the messages are those of the
prepared document, and each span finds its text under its new key. -/
theorem prepare_preserves_meaning (document : Text) (reindexing : Bool)
    (hk : ∀ span ∈ spans document, '[' ∉ span.key)
    (ht : ∀ span ∈ spans document, ¬ openMark <:+: span.text) :
    let prepared := prepare document reindexing
    List.Forall₂ (fun new old => new.text = old.text ∧
        prepared.messages.get? new.key =
          if reindexing = true ∨ (scan document).duplicates = [] then some old.text
          else last? old.key ((spans document).map fun span => (span.key, span.text)))
      (spans prepared.document) (spans document) ∧
    (Layout.ofText prepared.document).parts.map Part.before =
      (Layout.ofText document).parts.map Part.before ∧
    prepared.messages = (scan prepared.document).messages := by
  intro prepared
  have h : Apart document reindexing := apart_of_spans hk ht
  exact ⟨h.forall₂_spans, map_eq_of_forall₂ (h.forall₂_parts.imp fun new old hr => hr.1),
    h.messages_prepare⟩

theorem prepare_preserves_meaning_repeated :
    let document := "[msg:a]one[/msg] [msg:a]two[/msg] [msg:b]one[/msg] [msg:".toList
    (∀ span ∈ spans document, '[' ∉ span.key) ∧
      (∀ span ∈ spans document, ¬ openMark <:+: span.text) ∧
      (prepare document true).messages = (scan (prepare document true).document).messages := by
  intro document
  have hk : ∀ span ∈ spans document, '[' ∉ span.key := by decide +kernel
  have ht : ∀ span ∈ spans document, ¬ openMark <:+: span.text := by decide +kernel
  exact ⟨hk, ht, (prepare_preserves_meaning document true hk ht).2.2⟩

end MessageKeys.Markup
