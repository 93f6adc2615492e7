import Mathlib.Data.List.Nodup
import Mathlib.Data.List.Pairwise
import MessageKeys.Proofs.Markup.Numbering

/-!
# The keys that a re-indexing makes

Every name that is made is new: it is none of the keys of the messages and is not made twice, although
names that are made for one key may look like other keys. So no two slots of the messages fall
together: each updated slot becomes a slot for each of its new keys, and the others stay.
-/
namespace MessageKeys.Markup

variable {document key : Text} {keys taken : List Text} {updates : KeyUpdates}

/-- A numbering makes one name for each tag, counted from the left. -/
theorem length_newKeys (key : Text) (taken : List Text) (index : Nat) (text : Text) :
    (renumber key taken index text).newKeys.length = Text.occurrences (tag key) text := by
  induction taken, index, text using renumber.induct key with
  | case1 taken index text front back hcut _ _ _ ih =>
    rw [renumber_of_cut? hcut, List.length_cons, ih, Text.occurrences_of_cut? (tag_ne_nil key) hcut]
  | case2 taken index text hcut =>
    rw [renumber_of_absent hcut, Text.occurrences_of_absent (Text.cut?_eq_none_iff.mp hcut)]
    rfl

/-- The names that a numbering makes are new and distinct, and they are taken from then on. -/
theorem fresh_newKeys (key : Text) (taken : List Text) (index : Nat) (text : Text) :
    let made := renumber key taken index text
    made.newKeys.Nodup ∧ made.newKeys.Disjoint taken ∧ made.newKeys ⊆ made.taken := by
  induction taken, index, text using renumber.induct key with
  | case1 taken index text front back hcut _ _ _ ih =>
    obtain ⟨hnodup, hdisjoint, hsubset⟩ := ih
    obtain ⟨hnew, hdisjoint⟩ := List.disjoint_cons_right.mp hdisjoint
    have hfree := numbered_freshIndex_not_mem taken key index
    rw [renumber_of_cut? hcut]
    refine ⟨List.nodup_cons.mpr ⟨hnew, hnodup⟩, List.disjoint_cons_left.mpr ⟨hfree, hdisjoint⟩, ?_⟩
    exact List.cons_subset.mpr ⟨subset_taken_renumber key _ _ back List.mem_cons_self, hsubset⟩
  | case2 taken index text hcut =>
    rw [renumber_of_absent hcut]
    exact ⟨.nil, List.disjoint_nil_left taken, List.nil_subset taken⟩

/-- The updates with the new keys of one more key, if it got any. -/
def noted (updates : KeyUpdates) (key : Text) (newKeys : List Text) : KeyUpdates :=
  if newKeys.isEmpty then updates else updates.insert key newKeys

theorem renumberAll_cons (key : Text) (keys taken : List Text) (document : Text)
    (updates : KeyUpdates) :
    renumberAll (key :: keys) taken document updates =
      renumberAll keys (renumber key taken 0 document).taken (renumber key taken 0 document).document
        (noted updates key (renumber key taken 0 document).newKeys) := rfl

theorem get?_noted_self {newKeys : List Text} (h : newKeys ≠ []) :
    (noted updates key newKeys).get? key = some newKeys := by
  rw [noted, if_neg (mt List.isEmpty_iff.mp h), OrderedMap.get?_insert, if_pos rfl]

theorem getD_get?_noted (h : key ∉ updates.keys) (newKeys : List Text) :
    ((noted updates key newKeys).get? key).getD [] = newKeys := by
  unfold noted
  split
  · next he => rw [OrderedMap.get?_eq_none_iff.mpr h, List.isEmpty_iff.mp he, Option.getD_none]
  · rw [OrderedMap.get?_insert, if_pos rfl, Option.getD_some]

theorem get?_noted_of_ne {other : Text} (h : other ≠ key) (newKeys : List Text) :
    (noted updates key newKeys).get? other = updates.get? other := by
  unfold noted
  split
  · rfl
  · rw [OrderedMap.get?_insert, if_neg h]

theorem entries_noted (h : key ∉ updates.keys) (newKeys : List Text) :
    (noted updates key newKeys).entries =
      updates.entries ++ if newKeys.isEmpty then [] else [(key, newKeys)] := by
  unfold noted
  split
  · rw [List.append_nil]
  · exact OrderedMap.entries_insert_of_not_mem h

/-- The new keys of a key do not count as those of a later one. -/
theorem disjoint_noted (hn : (key :: keys).Nodup) (hu : (key :: keys).Disjoint updates.keys)
    (newKeys : List Text) : keys.Disjoint (noted updates key newKeys).keys := by
  obtain ⟨hk, -⟩ := List.nodup_cons.mp hn
  intro other ho hm
  obtain ⟨value, hv⟩ := OrderedMap.get?_of_mem_keys hm
  have hne : other ≠ key := fun he => hk (he ▸ ho)
  rw [get?_noted_of_ne hne] at hv
  exact hu (List.mem_cons_of_mem key ho) (OrderedMap.mem_keys_of_get? hv)

theorem get?_renumberAll_of_not_mem (h : key ∉ keys) (taken : List Text) (document : Text)
    (updates : KeyUpdates) :
    (renumberAll keys taken document updates).2.get? key = updates.get? key := by
  induction keys generalizing taken document updates with
  | nil => rfl
  | cons first keys ih =>
    obtain ⟨hne, hk⟩ := not_or.mp (mt List.mem_cons.mpr h)
    rw [renumberAll_cons, ih hk, get?_noted_of_ne hne]

/-- The entries that the numbering of all keys adds: none of them is empty, and all names in them are
new and distinct. -/
theorem entries_renumberAll (hn : keys.Nodup) (hu : keys.Disjoint updates.keys) (taken : List Text)
    (document : Text) :
    ∃ made : List (Text × List Text),
      (renumberAll keys taken document updates).2.entries = updates.entries ++ made ∧
      (∀ entry ∈ made, entry.1 ∈ keys ∧ entry.2 ≠ []) ∧
      (made.flatMap Prod.snd).Nodup ∧ (made.flatMap Prod.snd).Disjoint taken := by
  induction keys generalizing taken document updates with
  | nil => exact ⟨[], (List.append_nil _).symm, by simp, .nil, List.disjoint_nil_left taken⟩
  | cons key keys ih =>
    let first := renumber key taken 0 document
    obtain ⟨made, hentries, hmade, hnodup, hdisjoint⟩ := ih (List.nodup_cons.mp hn).2
      (disjoint_noted hn hu first.newKeys) first.taken first.document
    obtain ⟨hnew, hfree, htaken⟩ := fresh_newKeys key taken 0 document
    have hkey : key ∉ updates.keys := hu List.mem_cons_self
    have hmade : ∀ entry ∈ made, entry.1 ∈ key :: keys ∧ entry.2 ≠ [] := fun entry he =>
      ⟨List.mem_cons_of_mem key (hmade entry he).1, (hmade entry he).2⟩
    have hlater : (made.flatMap Prod.snd).Disjoint taken := fun name hm ht =>
      hdisjoint hm (subset_taken_renumber key taken 0 document ht)
    rw [renumberAll_cons, hentries, entries_noted hkey, List.append_assoc]
    by_cases he : first.newKeys.isEmpty
    · exact ⟨made, by rw [if_pos he, List.nil_append], hmade, hnodup, hlater⟩
    · refine ⟨(key, first.newKeys) :: made, by rw [if_neg he]; rfl, ?_, ?_, ?_⟩
      · refine List.forall_mem_cons.mpr ⟨⟨List.mem_cons_self, fun hnil => he ?_⟩, hmade⟩
        exact List.isEmpty_iff.mpr hnil
      · refine List.nodup_append'.mpr ⟨hnew, hnodup, fun name hm hmore => ?_⟩
        exact hdisjoint hmore (htaken hm)
      · exact List.disjoint_append_left.mpr ⟨hfree, hlater⟩

/-- A key gets as many new keys as its tag stands in the document when its turn comes. -/
theorem length_get?_renumberAll {before after : List Text} (hn : (before ++ key :: after).Nodup)
    (hu : (before ++ key :: after).Disjoint updates.keys) (taken : List Text) (document : Text) :
    (((renumberAll (before ++ key :: after) taken document updates).2.get? key).getD []).length =
      Text.occurrences (tag key) (renumberAll before taken document updates).1 := by
  induction before generalizing taken document updates with
  | nil =>
    have hkey : key ∉ after := (List.nodup_cons.mp hn).1
    rw [List.nil_append, renumberAll_cons, get?_renumberAll_of_not_mem hkey,
      getD_get?_noted (hu List.mem_cons_self), length_newKeys]
    rfl
  | cons first before ih =>
    rw [List.cons_append, renumberAll_cons, renumberAll_cons]
    exact ih (List.nodup_cons.mp hn).2 (disjoint_noted hn hu _) _ _

section applyUpdates

variable {messages : Messages}

/-- The new keys of two keys have no name in common. -/
theorem disjoint_of_nodup_values (hn : updates.values.flatten.Nodup) {a b : Text}
    {xs ys : List Text} (ha : updates.get? a = some xs) (hb : updates.get? b = some ys)
    (hab : a ≠ b) : xs.Disjoint ys := by
  rw [OrderedMap.values, List.nodup_flatten, List.pairwise_map] at hn
  have hne : (a, xs) ≠ (b, ys) := fun he => hab (Prod.mk.inj he).1
  have hsymm : Std.Symm fun x y : Text × List Text => x.2.Disjoint y.2 :=
    ⟨fun _ _ h _ hx hy => h hy hx⟩
  exact hn.2.forall (OrderedMap.get?_eq_some_iff.mp ha) (OrderedMap.get?_eq_some_iff.mp hb) hne

/-- Where the new keys are distinct and no keys of the messages, no two slots fall together. -/
theorem entries_applyUpdates (hn : updates.values.flatten.Nodup)
    (hd : updates.values.flatten.Disjoint messages.keys) :
    (applyUpdates messages updates).entries = messages.entries.flatMap fun entry =>
      ((updates.get? entry.1).getD [entry.1]).map fun newKey => (newKey, entry.2) := by
  let slot (key : Text) : List Text := (updates.get? key).getD [key]
  have hnew {key newKeys} (h : updates.get? key = some newKeys) :
      newKeys.Nodup ∧ newKeys ⊆ updates.values.flatten :=
    have hm := OrderedMap.mem_values_of_get? h
    ⟨(List.nodup_flatten.mp hn).1 newKeys hm, fun _ hname => List.mem_flatten_of_mem hm hname⟩
  have hself : ∀ key, (slot key).Nodup := by
    intro key
    cases hg : updates.get? key with
    | none => simp [slot, hg]
    | some newKeys => simpa [slot, hg] using (hnew hg).1
  have hapart : ∀ a ∈ messages.keys, ∀ b ∈ messages.keys, a ≠ b → (slot a).Disjoint (slot b) := by
    intro a ha b hb hab
    cases hga : updates.get? a with
    | none =>
      cases hgb : updates.get? b with
      | none => simpa [slot, hga, hgb] using hab.symm
      | some ys =>
        have hout : a ∉ ys := fun hm => hd ((hnew hgb).2 hm) ha
        simpa [slot, hga, hgb] using hout
    | some xs =>
      cases hgb : updates.get? b with
      | none =>
        have hout : b ∉ xs := fun hm => hd ((hnew hga).2 hm) hb
        simpa [slot, hga, hgb] using hout
      | some ys => simpa [slot, hga, hgb] using disjoint_of_nodup_values hn hga hgb hab
  refine OrderedMap.entries_ofList_of_nodup _ ?_
  have hkeys : (messages.entries.flatMap fun entry =>
      (slot entry.1).map fun newKey => (newKey, entry.2)).map Prod.fst =
        messages.keys.flatMap slot := by
    rw [List.map_flatMap, OrderedMap.keys, List.flatMap_map]
    simp [Function.comp_def]
  refine hkeys ▸ List.nodup_flatMap.mpr ⟨fun key _ => hself key, ?_⟩
  exact List.Nodup.pairwise_of_forall_ne messages.nodup hapart

end applyUpdates

/-- Re-indexing loses no message, whatever the messages and the keys are that it is told. The new keys
are distinct and none of them was a key before; an updated key has at least one; its slot is replaced
in place by one slot for each of them with the same text; all other slots stay. A key gets as many new
keys as its tag stands in the document that the keys before it leave. -/
theorem reindex_keeps_messages (document : Text) (messages : Messages) {keys : List Text}
    (hn : keys.Nodup) :
    let reindexed := reindex document messages keys
    let newKeys := reindexed.updates.values.flatten
    newKeys.Nodup ∧ newKeys.Disjoint messages.keys ∧
    (∀ entry ∈ reindexed.updates.entries, entry.1 ∈ keys ∧ entry.2 ≠ []) ∧
    (reindexed.messages.entries = messages.entries.flatMap fun entry =>
      match reindexed.updates.get? entry.1 with
      | some newKeys => newKeys.map fun newKey => (newKey, entry.2)
      | none => [entry]) ∧
    ∀ before key after, keys = before ++ key :: after →
      ((reindexed.updates.get? key).getD []).length =
        Text.occurrences (tag key) (reindex document messages before).document := by
  intro reindexed newKeys
  have hempty (keys : List Text) : keys.Disjoint (OrderedMap.empty : KeyUpdates).keys :=
    List.disjoint_nil_right keys
  obtain ⟨made, hentries, hmade, hnodup, hdisjoint⟩ :=
    entries_renumberAll hn (hempty keys) messages.keys document
  have hupdates : reindexed.updates.entries = made := hentries
  have hvalues : newKeys = made.flatMap Prod.snd := by
    rw [List.flatMap_def, ← hupdates]
    rfl
  have hfresh : newKeys.Nodup := hvalues ▸ hnodup
  have hfree : newKeys.Disjoint messages.keys := hvalues ▸ hdisjoint
  refine ⟨hfresh, hfree, hupdates ▸ hmade, ?_, ?_⟩
  · refine (entries_applyUpdates hfresh hfree).trans (List.flatMap_congr fun entry _ => ?_)
    cases reindexed.updates.get? entry.1 <;> rfl
  · rintro before key after rfl
    exact length_get?_renumberAll hn (hempty _) messages.keys document

/-- The names that one key would get are another key of the messages, so they are skipped. -/
theorem reindex_keeps_messages_chained :
    let document := "[msg:a]x[/msg][msg:a_0]y[/msg][msg:a]z[/msg][msg:a_0]w[/msg] [msg:a]".toList
    let messages := (scan document).messages
    let keys := ["a".toList, "a_0".toList]
    let reindexed := reindex document messages keys
    keys.Nodup ∧ reindexed.updates.values.flatten.Nodup ∧
      reindexed.updates.values.flatten.Disjoint messages.keys ∧
      ((reindexed.updates.get? "a_0".toList).getD []).length =
        Text.occurrences (tag "a_0".toList) (reindex document messages ["a".toList]).document := by
  intro document messages keys reindexed
  have hn : keys.Nodup := by decide +kernel
  obtain ⟨hnodup, hdisjoint, -, -, hlength⟩ := reindex_keeps_messages document messages hn
  exact ⟨hn, hnodup, hdisjoint, hlength ["a".toList] "a_0".toList [] rfl⟩

end MessageKeys.Markup
