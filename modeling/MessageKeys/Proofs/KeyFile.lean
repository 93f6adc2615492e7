import MessageKeys.KeyFile
import MessageKeys.Proofs.Files.TextFile
import MessageKeys.Proofs.Properties

/-!
# What a written key file says

The lines of the head come first, so a pair among them stands back behind every entry. Entries that
have the form of pairs are read back as they are; the others may say something else, but nothing
about keys that they do not spell.
-/
namespace MessageKeys.KeyFile

open OrderedMap (last?)
open Properties (Writable entries parse pairs spelled)

variable {plugin : Plugin} {base : Text} {locale : Locale} {earlier messages : Messages}
  {key value : Text}

theorem get?_entries_render (plugin : Plugin) (base : Text) (locale : Locale) (map : Messages)
    (key : Text) :
    (entries (parse (render plugin base locale map))).get? key =
      (last? key (map.entries.flatMap spelled)).or
        (last? key ((header plugin base locale).flatMap pairs)) := by
  rw [Properties.entries_parse, OrderedMap.get?_ofList, render, Properties.pairs_render,
    List.flatMap_append, OrderedMap.last?_append, List.flatMap_cons, List.flatMap_map]
  congr 2
  rw [← Properties.pairs_render, Properties.pairs_render_ofEntries]
  rfl

/-- Where the head has its two lines, all entries that have the form of pairs are read back, and no
others. -/
theorem entries_render {map : Messages} (hhead : ∀ line ∈ header plugin base locale, '\n' ∉ line)
    (h : Writable map) : entries (parse (render plugin base locale map)) = map := by
  have hnone : (header plugin base locale).flatMap pairs = [] := by
    refine List.flatMap_eq_nil_iff.mpr fun line hl => ?_
    have hline := hhead line hl
    simp only [header, List.mem_cons, List.not_mem_nil, or_false] at hl
    rcases hl with rfl | rfl
    · exact Properties.pairs_comment fun hn => hline (List.mem_cons_of_mem _ hn)
    · exact Properties.pairs_comment fun hn => hline (List.mem_cons_of_mem _ hn)
  have hpairs : pairs (render plugin base locale map) = map.entries := by
    rw [render, Properties.pairs_render, List.flatMap_append, List.flatMap_cons, List.flatMap_map,
      ← Properties.pairs_render, Properties.pairs_render_ofEntries, Properties.flatMap_spelled h]
    exact congrArg (· ++ _) hnone
  rw [Properties.entries_parse, hpairs]
  exact OrderedMap.ext_entries (OrderedMap.entries_ofList_of_nodup _ map.nodup)

/-- Entries that have the form of pairs are read back. -/
theorem get?_entries_render_of_writable {map : Messages} (h : Writable map)
    (hg : map.get? key = some value) :
    (entries (parse (render plugin base locale map))).get? key = some value := by
  rw [get?_entries_render, Properties.flatMap_spelled h, OrderedMap.last?_entries, hg]
  rfl

/-- Of an earlier key, what the entries spell last is read back; the head has no say in it. -/
theorem get?_entries_render_merge (he : Writable earlier) (hg : earlier.get? key = some value) :
    (entries (parse (render plugin base locale (earlier.merge messages)))).get? key =
      last? key ((earlier.merge messages).entries.flatMap spelled) := by
  have hkey := (he _ (OrderedMap.get?_eq_some_iff.mp hg)).1
  obtain ⟨merged, hm⟩ : ∃ merged, (earlier.merge messages).get? key = some merged := by
    rw [OrderedMap.get?_merge, hg]
    cases messages.get? key <;> simp
  have hspelled : key ∈ ((earlier.merge messages).entries.flatMap spelled).map Prod.fst := by
    rw [List.map_flatMap]
    exact List.mem_flatMap.mpr
      ⟨(key, merged), OrderedMap.get?_eq_some_iff.mp hm, Properties.mem_spelled hkey merged⟩
  rw [get?_entries_render]
  cases hl : last? key ((earlier.merge messages).entries.flatMap spelled) with
  | none => exact absurd hspelled (OrderedMap.last?_eq_none_iff.mp hl)
  | some last => rfl

/-- An earlier entry is read back, whatever the new messages are, unless they spell its key. -/
theorem get?_entries_render_of_not_spelled (he : Writable earlier)
    (hg : earlier.get? key = some value)
    (hn : key ∉ (messages.entries.flatMap spelled).map Prod.fst) :
    (entries (parse (render plugin base locale (earlier.merge messages)))).get? key =
      some value := by
  have hkey := (he _ (OrderedMap.get?_eq_some_iff.mp hg)).1
  have hspells : ∀ entry ∈ messages.entries, key ∉ (spelled entry).map Prod.fst := by
    intro entry hm hs
    obtain ⟨pair, hp, rfl⟩ := List.mem_map.mp hs
    exact hn (List.mem_map_of_mem (List.mem_flatMap.mpr ⟨entry, hm, hp⟩))
  have hmessages : messages.get? key = none := by
    cases hm : messages.get? key with
    | none => rfl
    | some new =>
      exact absurd (Properties.mem_spelled hkey new)
        (hspells _ (OrderedMap.get?_eq_some_iff.mp hm))
  have hmerged : (key, value) ∈ (earlier.merge messages).entries := by
    rw [← OrderedMap.get?_eq_some_iff, OrderedMap.get?_merge, hmessages, hg]
    rfl
  have hspelled : (key, value) ∈ (earlier.merge messages).entries.flatMap spelled := by
    refine List.mem_flatMap.mpr ⟨(key, value), hmerged, ?_⟩
    rw [Properties.spelled_of_isKey hkey (he _ (OrderedMap.get?_eq_some_iff.mp hg)).2]
    simp
  have hlast : last? key ((earlier.merge messages).entries.flatMap spelled) = some value := by
    refine OrderedMap.last?_eq_some hspelled fun other ho => ?_
    obtain ⟨⟨known, text⟩, hm, hs⟩ := List.mem_flatMap.mp ho
    rcases OrderedMap.mem_entries_merge hm with hm | ⟨hm, -⟩
    · exact absurd (List.mem_map_of_mem hs) (hspells _ hm)
    · obtain ⟨hk, hv⟩ := he _ hm
      rw [Properties.spelled_of_isKey hk hv] at hs
      obtain ⟨rfl, rfl⟩ := Prod.mk.inj (List.mem_singleton.mp hs)
      exact Option.some.inj ((OrderedMap.get?_eq_some_iff.mpr hm).symm.trans hg)
  rw [get?_entries_render_merge he hg, hlast]

/-- A key file is written behind its folder, over the pairs that are read at its place. -/
theorem write_ran {path : Path} {counted : Stats} {before after : World}
    (h : (write plugin path base locale messages).runOn before = (.ok counted, after)) :
    ∃ earlier made, (TextFile.makeParent path).runOn before = (.ok (), made) ∧
      (PropertyFile.readEntries path).runOn made = (.ok earlier, made) ∧
      (TextFile.write ("Failed to write file: ".toList ++ path.text) path
        (render plugin base locale (earlier.merge messages))).runOn made = (.ok (), after) ∧
      counted = stats earlier messages := by
  unfold write at h
  obtain ⟨_, made, hmade, h⟩ := Procedure.runOn_bind_eq_ok.mp h
  obtain ⟨earlier, read, hread, h⟩ := Procedure.runOn_bind_eq_ok.mp h
  obtain ⟨_, wrote, hwrote, h⟩ := Procedure.runOn_bind_eq_ok.mp h
  obtain ⟨rfl, hcounted⟩ := Procedure.runOn_pure_eq_ok.mp h
  obtain rfl := (PropertyFile.readEntries_eq_ok.mp hread).1
  exact ⟨earlier, read, hmade, hread, hwrote, hcounted⟩

/-- Writing a key file lays the messages over what could be read of it, and leaves all other files
alone. -/
theorem write_eq_ok {path : Path} {stats : Stats} {before after : World}
    (h : (write plugin path base locale messages).runOn before = (.ok stats, after)) :
    ∃ earlier,
      (∀ other content, path.place before.working = other.place before.working →
        before.text? other = some content → earlier = entries (parse content)) ∧
      Writable earlier ∧ World.Kept [path.place before.working] before after ∧
      after.text? path = some (render plugin base locale (earlier.merge messages)) := by
  obtain ⟨earlier, made, hmade, hread, hwrote, -⟩ := write_ran h
  have hkept := TextFile.kept_makeParent hmade
  have hwritable := PropertyFile.writable_of_readEntries hread
  obtain ⟨-, hearlier⟩ := PropertyFile.readEntries_eq_ok.mp hread
  obtain ⟨hwritten, htext⟩ := TextFile.write_eq_ok hwrote
  refine ⟨earlier, ?_, hwritable, ?_, htext⟩
  · intro path' content hp hc
    have ht := TextFile.text?_of_write hwrote (hkept.text? hc (by simp)) (by rwa [hkept.working])
    rcases hearlier with ⟨hk, -⟩ | ⟨other, ho, rfl⟩
    · simp [PropertyFile.kind?_of_text? ht] at hk
    · rw [Option.some.inj (ho.symm.trans ht)]
  · have hall := hkept.trans hwritten
    rwa [hkept.working] at hall

end MessageKeys.KeyFile
