import Mathlib.Data.List.Nodup
import MessageKeys.Proofs.Markup.FreshName
import MessageKeys.Proofs.Markup.Replacement

/-!
# What consolidation does to the messages

The owners of a text are the keys that have it. The names for shared texts differ from each other
and from every key that has another text, so keys meet under one new name exactly if they say the
same. No message is lost on the way, no text is left twice, and a second consolidation finds nothing
to do.
-/
namespace MessageKeys.Markup

open OrderedMap (firsts)

variable {messages : Messages} {key text new : Text}

theorem getD_get?_foldl_owners (text : Text) (entries : List (Text × Text))
    (map : OrderedMap Text (List Text)) :
    ((entries.foldl (fun map (key, text) =>
        map.insert text ((map.get? text).getD [] ++ [key])) map).get? text).getD [] =
      (map.get? text).getD [] ++ (entries.filter fun entry => entry.2 = text).map Prod.fst := by
  induction entries generalizing map with
  | nil => simp
  | cons entry rest ih =>
    rw [List.foldl_cons, ih, OrderedMap.get?_insert]
    by_cases h : text = entry.2
    · simp [h]
    · simp [h, Ne.symm h]

theorem getD_get?_owners (messages : Messages) (text : Text) :
    ((owners messages).get? text).getD [] =
      (messages.entries.filter fun entry => entry.2 = text).map Prod.fst := by
  simpa [owners] using getD_get?_foldl_owners text messages.entries .empty

theorem mem_of_mem_owners {keys : List Text} (h : (text, keys) ∈ (owners messages).entries) :
    key ∈ keys ↔ messages.get? key = some text := by
  have hk := getD_get?_owners messages text
  rw [OrderedMap.get?_eq_some_iff.mpr h, Option.getD_some] at hk
  rw [hk, OrderedMap.get?_eq_some_iff]
  simp

theorem exists_owners (h : messages.get? key = some text) :
    ∃ keys, (text, keys) ∈ (owners messages).entries := by
  cases hg : (owners messages).get? text with
  | some keys => exact ⟨keys, OrderedMap.get?_eq_some_iff.mp hg⟩
  | none =>
    have hnone := getD_get?_owners messages text
    rw [hg] at hnone
    have hm : key ∈ (messages.entries.filter fun entry => entry.2 = text).map Prod.fst := by
      simpa using OrderedMap.get?_eq_some_iff.mp h
    rw [← hnone] at hm
    simp at hm

theorem nodup_owners {keys : List Text} (h : (text, keys) ∈ (owners messages).entries) : keys.Nodup := by
  have hk := getD_get?_owners messages text
  rw [OrderedMap.get?_eq_some_iff.mpr h, Option.getD_some] at hk
  rw [hk]
  exact (List.filter_sublist.map Prod.fst).nodup messages.nodup

theorem map_fst_sharedKeys (taken : List Text) (entries : List (Text × List Text)) :
    (sharedKeys taken entries).map Prod.fst =
      (entries.filter fun entry => 1 < entry.2.length).map Prod.fst := by
  induction entries generalizing taken with
  | nil => rfl
  | cons entry rest ih =>
    obtain ⟨text, keys⟩ := entry
    match keys with
    | [] => exact ih taken
    | [_] => exact ih taken
    | first :: second :: others => exact congrArg (text :: ·) (ih _)

/-- What one key for each shared text is named after. -/
theorem mem_sharedKeys {taken : List Text} {entries : List (Text × List Text)}
    (h : (text, new) ∈ sharedKeys taken entries) :
    ∃ keys, (text, keys) ∈ entries ∧ (∃ first ∈ keys, ∃ index, new = numberedMulti first index) ∧
      (new ∈ taken → new ∈ keys) := by
  induction entries generalizing taken with
  | nil => simp [sharedKeys] at h
  | cons entry rest ih =>
    have later {taken : List Text} (h : (text, new) ∈ sharedKeys taken rest) :
        ∃ keys, (text, keys) ∈ entry :: rest ∧
          (∃ first ∈ keys, ∃ index, new = numberedMulti first index) ∧
          (new ∈ taken → new ∈ keys) := by
      obtain ⟨keys, hm, hd⟩ := ih h
      exact ⟨keys, List.mem_cons_of_mem entry hm, hd⟩
    obtain ⟨known, keys⟩ := entry
    match keys with
    | [] => exact later h
    | [_] => exact later h
    | first :: second :: others =>
      rcases List.mem_cons.mp h with he | h
      · obtain ⟨rfl, rfl⟩ := Prod.mk.inj he
        exact ⟨_, by simp, ⟨first, by simp, _, rfl⟩, mem_owners_of_freshMulti_mem⟩
      · obtain ⟨keys, hm, hd, ht⟩ := later h
        exact ⟨keys, hm, hd, fun hn => ht (List.mem_cons_of_mem _ hn)⟩

/-- The new keys differ where no key has two texts. -/
theorem nodup_sharedKeys {taken : List Text} {entries : List (Text × List Text)}
    (ht : ∀ entry ∈ entries, ∀ key ∈ entry.2, key ∈ taken)
    (hd : entries.Pairwise fun a b => ∀ key ∈ a.2, key ∉ b.2) :
    ((sharedKeys taken entries).map Prod.snd).Nodup := by
  induction entries generalizing taken with
  | nil => simp [sharedKeys]
  | cons entry rest ih =>
    obtain ⟨hfirst, hrest⟩ := List.pairwise_cons.mp hd
    have htrest := fun other ho => ht other (List.mem_cons_of_mem entry ho)
    obtain ⟨known, keys⟩ := entry
    match keys with
    | [] => exact ih htrest hrest
    | [_] => exact ih htrest hrest
    | first :: second :: others =>
      refine List.nodup_cons.mpr ⟨fun hm => ?_, ih (fun other ho key hk =>
        List.mem_cons_of_mem _ (htrest other ho key hk)) hrest⟩
      obtain ⟨⟨text, new⟩, hs, rfl⟩ := List.mem_map.mp hm
      -- a name given again would be an owner of both texts
      obtain ⟨keys, hkeys, -, htaken⟩ := mem_sharedKeys hs
      have hlater := htaken (by simp)
      have hearlier := mem_owners_of_freshMulti_mem (htrest _ hkeys _ hlater)
      exact hfirst _ hkeys _ hearlier hlater

/-- The one key for each text that several keys have. -/
def sharedNames (messages : Messages) : Messages :=
  .ofList (sharedKeys messages.keys (owners messages).entries)

theorem mem_of_get?_sharedNames (h : (sharedNames messages).get? text = some new) :
    (text, new) ∈ sharedKeys messages.keys (owners messages).entries := by
  rw [sharedNames, OrderedMap.get?_ofList] at h
  exact OrderedMap.mem_of_last? h

/-- A text has a shared name exactly if several keys own it. -/
theorem isSome_sharedNames : ((sharedNames messages).get? text).isSome = true ↔
    ∃ key other, key ≠ other ∧ messages.get? key = some text ∧ messages.get? other = some text := by
  rw [Option.isSome_iff_ne_none, Ne, OrderedMap.get?_eq_none_iff, Classical.not_not, sharedNames,
    OrderedMap.keys_ofList, OrderedMap.mem_firsts, map_fst_sharedKeys]
  constructor
  · intro h
    obtain ⟨⟨_, keys⟩, hm, rfl⟩ := List.mem_map.mp h
    obtain ⟨hm, hl⟩ := List.mem_filter.mp hm
    match keys with
    | [] => simp at hl
    | [_] => simp at hl
    | key :: other :: rest =>
      have hn := nodup_owners hm
      refine ⟨key, other, fun he => ?_, (mem_of_mem_owners hm).mp (by simp),
        (mem_of_mem_owners hm).mp (by simp)⟩
      simp [he] at hn
  · rintro ⟨key, other, hne, hk, ho⟩
    obtain ⟨keys, hm⟩ := exists_owners hk
    have hsub : [key, other] ⊆ keys := by simp [mem_of_mem_owners hm, hk, ho]
    have hl := (show [key, other].Nodup by simpa using hne).length_le_of_subset hsub
    exact List.mem_map.mpr ⟨(text, keys), List.mem_filter.mpr ⟨hm, decide_eq_true hl⟩, rfl⟩

/-- The name for a shared text is a multi name of a key that has the text. -/
theorem eq_numberedMulti_of_sharedNames (h : (sharedNames messages).get? text = some new) :
    ∃ first, messages.get? first = some text ∧ ∃ index, new = numberedMulti first index := by
  obtain ⟨keys, hm, ⟨first, hf, hd⟩, -⟩ := mem_sharedKeys (mem_of_get?_sharedNames h)
  exact ⟨first, (mem_of_mem_owners hm).mp hf, hd⟩

/-- A name for a shared text that was a key before was a key with that text. -/
theorem get?_of_sharedNames_mem (h : (sharedNames messages).get? text = some new)
    (hn : new ∈ messages.keys) : messages.get? new = some text := by
  obtain ⟨keys, hm, -, ht⟩ := mem_sharedKeys (mem_of_get?_sharedNames h)
  exact (mem_of_mem_owners hm).mp (ht hn)

theorem sharedNames_injective {other : Text} (h : (sharedNames messages).get? text = some new)
    (ho : (sharedNames messages).get? other = some new) : text = other := by
  have hn : ((sharedKeys messages.keys (owners messages).entries).map Prod.snd).Nodup := by
    refine nodup_sharedKeys (fun entry he key hk => ?_) ?_
    · exact OrderedMap.mem_keys_of_get? ((mem_of_mem_owners he).mp hk)
    · have hd := List.pairwise_map.mp (owners messages).nodup
      refine hd.imp_of_mem fun {a b} ha hb hne key hk hl => hne ?_
      have hka := (mem_of_mem_owners ha).mp hk
      have hkb := (mem_of_mem_owners hb).mp hl
      exact Option.some.inj (hka.symm.trans hkb)
  have he := List.inj_on_of_nodup_map hn (mem_of_get?_sharedNames h) (mem_of_get?_sharedNames ho) rfl
  exact congrArg Prod.fst he

theorem get?_consolidationMap (messages : Messages) (key : Text) :
    (consolidationMap messages).get? key =
      (messages.get? key).bind (sharedNames messages).get? :=
  OrderedMap.get?_ofList_filterMap messages (sharedNames messages).get? key

/-- The keys that get new names are those whose text another key owns as well. -/
theorem mem_keys_consolidationMap : key ∈ (consolidationMap messages).keys ↔
    ∃ text other, messages.get? key = some text ∧ messages.get? other = some text ∧ other ≠ key := by
  have hiff : key ∈ (consolidationMap messages).keys ↔
      ∃ text, messages.get? key = some text ∧ ((sharedNames messages).get? text).isSome = true := by
    rw [← not_iff_not, ← OrderedMap.get?_eq_none_iff, get?_consolidationMap, Option.bind_eq_none_iff]
    simp
  rw [hiff]
  refine exists_congr fun text => ?_
  rw [isSome_sharedNames]
  constructor
  · rintro ⟨hk, a, b, hne, ha, hb⟩
    by_cases he : a = key
    · exact ⟨b, hk, hb, fun h => hne (he.trans h.symm)⟩
    · exact ⟨a, hk, ha, he⟩
  · rintro ⟨other, hk, ho, hne⟩
    exact ⟨hk, other, key, hne, ho, hk⟩

theorem soundRenaming_consolidationMap (h : ∀ key ∈ messages.keys, ']' ∉ key) :
    SoundRenaming (consolidationMap messages) := by
  have hnew {old new : Text} (hm : (consolidationMap messages).get? old = some new) :
      ∃ first, ']' ∉ first ∧ Derived first new := by
    rw [get?_consolidationMap, Option.bind_eq_some_iff] at hm
    obtain ⟨text, -, hs⟩ := hm
    obtain ⟨first, hf, index, rfl⟩ := eq_numberedMulti_of_sharedNames hs
    exact ⟨first, h first (OrderedMap.mem_keys_of_get? hf), derived_numberedMulti first index⟩
  refine ⟨fun {old new} hm => ?_, fun hm => ?_, fun hm => ?_⟩
  · rw [get?_consolidationMap, Option.bind_eq_some_iff] at hm
    obtain ⟨text, ht, -⟩ := hm
    exact h old (OrderedMap.mem_keys_of_get? ht)
  · obtain ⟨first, hf, hd⟩ := hnew hm
    exact hd.bracket hf
  · obtain ⟨first, hf, hd⟩ := hnew hm
    exact hd.not_endMark_infix_tag hf

/-- A key is renamed to the name of its text, or its text has no name and it stays. -/
theorem renamed_consolidationMap (h : messages.get? key = some text) :
    renamed (consolidationMap messages) key = ((sharedNames messages).get? text).getD key := by
  rw [renamed, get?_consolidationMap, h, Option.bind_some]

/-- Keys get one name only if they say the same. -/
theorem get?_eq_of_renamed_eq {other : Text} (hk : key ∈ messages.keys) (ho : other ∈ messages.keys)
    (h : renamed (consolidationMap messages) key = renamed (consolidationMap messages) other) :
    messages.get? key = messages.get? other := by
  obtain ⟨text, ht⟩ := OrderedMap.get?_of_mem_keys hk
  obtain ⟨words, hw⟩ := OrderedMap.get?_of_mem_keys ho
  rw [renamed_consolidationMap ht, renamed_consolidationMap hw] at h
  rw [ht, hw]
  cases hs : (sharedNames messages).get? text with
  | none =>
    cases hn : (sharedNames messages).get? words with
    | none =>
      obtain rfl : key = other := by simpa [hs, hn] using h
      exact ht.symm.trans hw
    | some new =>
      obtain rfl : key = new := by simpa [hs, hn] using h
      exact ht.symm.trans (get?_of_sharedNames_mem hn hk)
  | some name =>
    cases hn : (sharedNames messages).get? words with
    | none =>
      obtain rfl : name = other := by simpa [hs, hn] using h
      exact (get?_of_sharedNames_mem hs ho).symm.trans hw
    | some new =>
      obtain rfl : name = new := by simpa [hs, hn] using h
      exact congrArg some (sharedNames_injective hs hn)

/-- Keys with one text have one name afterwards. -/
theorem renamed_eq_of_get?_eq {other : Text} (hk : messages.get? key = some text)
    (ho : messages.get? other = some text) :
    renamed (consolidationMap messages) key = renamed (consolidationMap messages) other := by
  rw [renamed_consolidationMap hk, renamed_consolidationMap ho]
  cases hs : (sharedNames messages).get? text with
  | some name => rfl
  | none =>
    apply Classical.byContradiction
    intro hne
    have hshared := isSome_sharedNames.mpr ⟨key, other, hne, hk, ho⟩
    simp [hs] at hshared

theorem messages_consolidate (messages : Messages) (document : Text) :
    (consolidate messages document).messages =
      OrderedMap.insertNewAll .empty
        (messages.entries.map fun entry =>
          (renamed (consolidationMap messages) entry.1, entry.2)) := by
  rw [OrderedMap.insertNewAll, List.foldl_map]
  rfl

theorem keys_messages_consolidate (messages : Messages) (document : Text) :
    (consolidate messages document).messages.keys =
      OrderedMap.firsts (messages.keys.map (renamed (consolidationMap messages))) := by
  rw [messages_consolidate, OrderedMap.keys_insertNewAll]
  change (OrderedMap.ofList _).keys = _
  rw [OrderedMap.keys_ofList, OrderedMap.keys, List.map_map, List.map_map]
  rfl

/-- No message is lost: each is found under the new name of its key. -/
theorem get?_messages_consolidate (document : Text) (hk : key ∈ messages.keys) :
    (consolidate messages document).messages.get? (renamed (consolidationMap messages) key) =
      messages.get? key := by
  obtain ⟨text, ht⟩ := OrderedMap.get?_of_mem_keys hk
  rw [messages_consolidate, OrderedMap.get?_insertNewAll, OrderedMap.get?_empty, Option.none_or, ht]
  refine OrderedMap.lookup_eq_some ?_ fun other ho => ?_
  · exact List.mem_map.mpr ⟨(key, text), OrderedMap.get?_eq_some_iff.mp ht, rfl⟩
  · obtain ⟨⟨known, _⟩, hm, he⟩ := List.mem_map.mp ho
    obtain ⟨hr, rfl⟩ := Prod.mk.inj he
    have hg := OrderedMap.get?_eq_some_iff.mpr hm
    have hsame := get?_eq_of_renamed_eq (OrderedMap.mem_keys_of_get? hg) hk hr
    exact Option.some.inj (hg.symm.trans (hsame.trans ht))

/-- The messages of renamed entries are the renamed messages of the entries. -/
theorem messages_consolidate_ofList (entries : List (Text × Text)) (document : Text) :
    (consolidate (.ofList entries) document).messages =
      OrderedMap.ofList (entries.map fun entry =>
        (renamed (consolidationMap (.ofList entries)) entry.1, entry.2)) := by
  have hkeys {key : Text} : key ∈ (OrderedMap.ofList entries).keys ↔ key ∈ entries.map Prod.fst := by
    rw [OrderedMap.keys_ofList, OrderedMap.mem_firsts]
  apply OrderedMap.eq_of_keys_of_get?
  · rw [keys_messages_consolidate, OrderedMap.keys_ofList, OrderedMap.keys_ofList,
      OrderedMap.firsts_map_firsts, List.map_map, List.map_map]
    rfl
  · intro new hn
    rw [keys_messages_consolidate, OrderedMap.mem_firsts] at hn
    obtain ⟨key, hk, rfl⟩ := List.mem_map.mp hn
    rw [get?_messages_consolidate document hk, OrderedMap.get?_ofList, OrderedMap.get?_ofList,
      OrderedMap.last?_map (hkeys.mp hk)]
    intro other ho hr
    have hsame := get?_eq_of_renamed_eq (hkeys.mpr ho) hk hr
    rwa [OrderedMap.get?_ofList, OrderedMap.get?_ofList] at hsame

/-- Consolidation leaves each text once. -/
theorem values_consolidate (messages : Messages) (document : Text) :
    (consolidate messages document).messages.values = firsts messages.values := by
  have hapart : ∀ a ∈ messages.entries.map (fun entry =>
        (renamed (consolidationMap messages) entry.1, entry.2)),
      ∀ b ∈ messages.entries.map (fun entry =>
        (renamed (consolidationMap messages) entry.1, entry.2)), a.1 = b.1 ↔ a.2 = b.2 := by
    refine List.forall_mem_map.mpr fun a ha => List.forall_mem_map.mpr fun b hb => ?_
    have ha := OrderedMap.get?_eq_some_iff.mpr ha
    have hb := OrderedMap.get?_eq_some_iff.mpr hb
    constructor
    · intro he
      have hsame := get?_eq_of_renamed_eq (OrderedMap.mem_keys_of_get? ha)
        (OrderedMap.mem_keys_of_get? hb) he
      exact Option.some.inj (ha.symm.trans (hsame.trans hb))
    · intro he
      exact renamed_eq_of_get?_eq ha (hb.trans (congrArg some he.symm))
  obtain ⟨chosen, hsub, hkeys, hvalues⟩ := OrderedMap.exists_firsts hapart
  have hentries : (consolidate messages document).messages.entries = chosen := by
    refine OrderedMap.entries_eq_of_keys ?_ fun entry he => ?_
    · rw [keys_messages_consolidate, hkeys, OrderedMap.keys, List.map_map, List.map_map]
      rfl
    · obtain ⟨⟨key, text⟩, hm, rfl⟩ := List.mem_map.mp (hsub he)
      have hg := OrderedMap.get?_eq_some_iff.mpr hm
      exact (get?_messages_consolidate document (OrderedMap.mem_keys_of_get? hg)).trans hg
  rw [OrderedMap.values, hentries, hvalues, List.map_map]
  rfl

/-- Where no text is said twice, there is nothing to consolidate. -/
theorem consolidate_of_nodup (h : messages.values.Nodup) (document : Text) :
    consolidate messages document = ⟨messages, document, .empty⟩ := by
  have hnone (text : Text) : (sharedNames messages).get? text = none := by
    apply Option.not_isSome_iff_eq_none.mp
    intro hs
    obtain ⟨key, other, hne, hk, ho⟩ := isSome_sharedNames.mp hs
    have he := List.inj_on_of_nodup_map h (OrderedMap.get?_eq_some_iff.mp hk)
      (OrderedMap.get?_eq_some_iff.mp ho) rfl
    exact hne (congrArg Prod.fst he)
  have hget (key : Text) : (consolidationMap messages).get? key = none := by
    rw [get?_consolidationMap, Option.bind_eq_none_iff]
    exact fun text _ => hnone text
  have hmap : consolidationMap messages = .empty := OrderedMap.eq_empty_of_get? hget
  have hkept (key : Text) : renamed (consolidationMap messages) key = key := by
    rw [renamed, hget, Option.getD_none]
  have hmessages : (consolidate messages document).messages = messages := by
    refine OrderedMap.eq_of_keys_of_get? ?_ fun key hk => ?_
    · rw [keys_messages_consolidate, funext hkept, List.map_id']
      exact OrderedMap.firsts_eq_self messages.nodup
    · rw [keys_messages_consolidate, funext hkept, List.map_id', OrderedMap.mem_firsts] at hk
      rw [← get?_messages_consolidate document hk, hkept]
  have hdocument : (consolidate messages document).document = document := by
    refine replaceTags_eq_self fun key hk => ?_
    rw [hmap] at hk
    cases hk
  rw [show consolidate messages document = ⟨(consolidate messages document).messages,
    (consolidate messages document).document, consolidationMap messages⟩ from rfl, hmessages,
    hdocument, hmap]

/-- Consolidation loses no message and leaves no text twice: the texts are the distinct ones of
before, in the order of their first owners, and each message is found under the new name of its key.
The keys of texts with several owners get new names, and the others stay with their texts. So there
is nothing left to consolidate. -/
theorem consolidate_lossless (messages : Messages) (document : Text) :
    let result := consolidate messages document
    result.messages.values.Nodup ∧ result.messages.values = firsts messages.values ∧
    (∀ entry ∈ messages.entries,
      result.messages.get? ((result.remapped.get? entry.1).getD entry.1) = some entry.2) ∧
    (∀ key, key ∈ result.remapped.keys ↔ ∃ text other, messages.get? key = some text ∧
      messages.get? other = some text ∧ other ≠ key) ∧
    (∀ entry ∈ messages.entries,
      (∀ other, messages.get? other = some entry.2 → other = entry.1) →
        entry ∈ result.messages.entries) ∧
    ∀ other, consolidate result.messages other = ⟨result.messages, other, .empty⟩ := by
  intro result
  have hvalues : result.messages.values = firsts messages.values := values_consolidate messages document
  have hnodup : result.messages.values.Nodup := hvalues ▸ OrderedMap.nodup_firsts _
  have hfound : ∀ entry ∈ messages.entries,
      result.messages.get? ((result.remapped.get? entry.1).getD entry.1) = some entry.2 := by
    intro entry he
    have hg := OrderedMap.get?_eq_some_iff.mpr he
    exact (get?_messages_consolidate document (OrderedMap.mem_keys_of_get? hg)).trans hg
  have hremapped (key : Text) : key ∈ result.remapped.keys ↔ ∃ text other,
      messages.get? key = some text ∧ messages.get? other = some text ∧ other ≠ key :=
    mem_keys_consolidationMap
  refine ⟨hnodup, hvalues, hfound, hremapped, fun entry he hone => ?_, consolidate_of_nodup hnodup⟩
  have hg := OrderedMap.get?_eq_some_iff.mpr he
  have hstays : result.remapped.get? entry.1 = none := by
    refine OrderedMap.get?_eq_none_iff.mpr fun hm => ?_
    obtain ⟨text, other, hk, ho, hne⟩ := (hremapped entry.1).mp hm
    obtain rfl := Option.some.inj (hg.symm.trans hk)
    exact hne (hone other ho)
  have hkept := hfound entry he
  rw [hstays, Option.getD_none] at hkept
  exact OrderedMap.get?_eq_some_iff.mp hkept

end MessageKeys.Markup
