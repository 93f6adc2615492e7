import MessageKeys.Proofs.ExtractionEnds

/-!
# Merging messages into a key file

A key file is not carried over line by line: it is read, whatever its lines are, and written anew. All
that could be read is written back in its order, so what a second reading finds are the merged
entries. The head consists of comments as long as what it names has no line feeds. A second writing
thus goes over the entries that the first one merged, and puts the same text as if both were one.
-/
namespace MessageKeys.KeyFile

open Properties (Writable)

variable {plugin : Plugin} {base : Text} {locale : Locale} {earlier messages : Messages} {path : Path}
  {before after : World}

theorem line_of_mem_header
    (h : ∀ field ∈ [plugin.name, plugin.version, base, locale.toText], '\n' ∉ field) :
    ∀ line ∈ header plugin base locale, '\n' ∉ line := by
  simp only [List.forall_mem_cons, List.not_mem_nil, false_implies, implies_true, and_true] at h
  obtain ⟨hname, hversion, hbase, hlocale⟩ := h
  simp [header, hname, hversion, hbase, hlocale]

/-- Each key of the file is an earlier key that is retained or a key of the messages. -/
theorem retained_add_size (earlier messages : Messages) :
    (stats earlier messages).retained + messages.size = (stats earlier messages).written :=
  (OrderedMap.size_merge earlier messages).symm

theorem added_stats (earlier messages : Messages) :
    (stats earlier messages).added =
      (messages.entries.filter (!earlier.contains ·.1)).length := by
  change (messages.keys.filter (!earlier.contains ·)).length = _
  rw [OrderedMap.keys, List.filter_map, List.length_map]
  rfl

/-- What a key file said before can be written again. -/
theorem writable_of_entriesAt? {location : Location}
    (h : before.entriesAt? location = some earlier) : Writable earlier := by
  unfold World.entriesAt? at h
  split at h
  · cases h
    exact Properties.writable_empty
  · obtain ⟨content, -, rfl⟩ := Option.map_eq_some_iff.mp h
    exact Properties.writable_entries content

/-- After the messages are written to a key file, reading it gives the earlier entries in their order,
each with the value of the messages where they have its key, and then the other messages; and the
numbers that are returned count these entries. -/
theorem write_merges {counted : Stats}
    (hfields : ∀ field ∈ [plugin.name, plugin.version, base, locale.toText], '\n' ∉ field)
    (hmessages : Writable messages)
    (hrun : (write plugin path base locale messages).runOn before = (.ok counted, after)) :
    ∃ earlier found, before.entriesAt? (path.place before.working) = some earlier ∧
      (PropertyFile.readEntries path).runOn after = (.ok found, after) ∧
      found.entries =
        earlier.entries.map (fun entry => (entry.1, (messages.get? entry.1).getD entry.2)) ++
          messages.entries.filter (!earlier.contains ·.1) ∧
      counted.written = found.size ∧
      counted.retained + messages.size = counted.written ∧
      counted.added = (messages.entries.filter (!earlier.contains ·.1)).length := by
  obtain ⟨earlier, hearlier, -, htext, rfl⟩ := entriesAt?_of_write_eq_ok hrun
  have hread : (PropertyFile.readEntries path).runOn after = (.ok (earlier.merge messages), after) := by
    refine PropertyFile.readEntries_eq_ok.mpr ⟨rfl, .inr ⟨_, htext, ?_⟩⟩
    exact (entries_render (line_of_mem_header hfields)
      ((writable_of_entriesAt? hearlier).merge hmessages)).symm
  exact ⟨earlier, earlier.merge messages, hearlier, hread, OrderedMap.entries_merge earlier messages,
    rfl, retained_add_size earlier messages, added_stats earlier messages⟩

/-- A key file with a comment, a blank line, a repeated key and a line that is not a pair. -/
theorem write_merges_page :
    let setup := KeyExtraction.sampleSetup KeyExtraction.english
    let path := setup.destination KeyExtraction.page
    let lines := "# a=b\n\nold = Curated\nk=Stale\nbroken line\n k = Staler".toList
    let before := KeyExtraction.pageWorld [] lines
    let messages := .ofList [("new".toList, "#a".toList), ("k".toList, "x=y".toList)]
    let after := ((write setup.plugin path "p".toList setup.locale messages).runOn before).2
    ∃ earlier found, before.entriesAt? (path.place before.working) = some earlier ∧
      (PropertyFile.readEntries path).runOn after = (.ok found, after) ∧
      found.entries = [("old".toList, "Curated".toList), ("k".toList, "x=y".toList),
        ("new".toList, "#a".toList)] ∧
      found.size = 3 := by
  intro setup path lines before messages after
  have hok : ((write setup.plugin path "p".toList setup.locale messages).runOn before).1 =
      .ok ⟨3, 1, 1⟩ := by decide +kernel
  have hrun : (write setup.plugin path "p".toList setup.locale messages).runOn before =
      (.ok ⟨3, 1, 1⟩, after) := by rw [← hok]
  have hpairs : before.entriesAt? (path.place before.working) =
      some (.ofList [("old".toList, "Curated".toList), ("k".toList, "Staler".toList)]) := by
    decide +kernel
  obtain ⟨earlier, found, hearlier, hread, hentries, hwritten, -, -⟩ :=
    write_merges (by decide +kernel) (by decide +kernel) hrun
  obtain rfl := Option.some.inj (hpairs.symm.trans hearlier)
  refine ⟨_, found, hearlier, hread, hentries.trans (by decide +kernel), hwritten.symm⟩

/-- A key file whose folder is made, and that can then be read and written. -/
structure Ready (path : Path) (before made : World) (earlier : Messages) : Prop where
  parent : (TextFile.makeParent path).runOn before = (.ok (), made)
  read : (PropertyFile.readEntries path).runOn made = (.ok earlier, made)
  canWrite : made.CanWrite path

/-- The machine with a key file of these entries. -/
def withEntries (plugin : Plugin) (path : Path) (base : Text) (locale : Locale) (made : World)
    (entries : Messages) : World :=
  { made with
    tree := made.tree.put (path.place made.working)
      (.file (render plugin base locale entries).toBytes) }

/-- Of two key files at one place the last one stays. -/
theorem withEntries_withEntries (made : World) (entries later : Messages) :
    withEntries plugin path base locale (withEntries plugin path base locale made entries) later =
      withEntries plugin path base locale made later :=
  congrArg (fun tree => { made with tree }) (Tree.put_put _ _ _ _)

section

variable {made : World} {entries : Messages}

theorem Ready.write (h : Ready path before made earlier) (messages : Messages) :
    (write plugin path base locale messages).runOn before =
      (.ok (stats earlier messages),
        withEntries plugin path base locale made (earlier.merge messages)) := by
  refine Procedure.runOn_bind_eq_ok.mpr ⟨(), made, h.parent, ?_⟩
  refine Procedure.runOn_bind_eq_ok.mpr ⟨earlier, made, h.read, ?_⟩
  exact Procedure.runOn_bind_eq_ok.mpr ⟨(), _, TextFile.write_of_canWrite h.canWrite _ _, rfl⟩

/-- A key file is ready to be written, or the work on it fails in one way for all messages. -/
theorem ready_or_fails (plugin : Plugin) (path : Path) (base : Text) (locale : Locale)
    (before : World) :
    (∃ made earlier, Ready path before made earlier) ∨
      ∃ failure after, ∀ messages,
        (write plugin path base locale messages).runOn before = (.error failure, after) := by
  have hlooks : Program.Looks (PropertyFile.readEntries path).run :=
    PropertyFile.keeps_readEntries path
  cases hparent : (TextFile.makeParent path).runOn before with
  | mk result made =>
    cases result with
    | error failure =>
      exact .inr ⟨failure, made, fun _ => Procedure.runOn_bind_eq_error.mpr (.inl hparent)⟩
    | ok _ =>
      cases hread : (PropertyFile.readEntries path).runOn made with
      | mk result read =>
        obtain rfl := hlooks.ran hread
        cases result with
        | error failure =>
          exact .inr ⟨failure, read, fun _ => Procedure.runOn_bind_eq_error.mpr
            (.inr ⟨(), read, hparent, Procedure.runOn_bind_eq_error.mpr (.inl hread)⟩)⟩
        | ok earlier =>
          rcases TextFile.canWrite_or_fails read ("Failed to write file: ".toList ++ path.text) path
            with hcan | ⟨failure, after, hfails⟩
          · exact .inl ⟨read, earlier, hparent, hread, hcan⟩
          · refine .inr ⟨failure, after, fun messages => ?_⟩
            refine Procedure.runOn_bind_eq_error.mpr (.inr ⟨(), read, hparent, ?_⟩)
            refine Procedure.runOn_bind_eq_error.mpr (.inr ⟨earlier, read, hread, ?_⟩)
            exact Procedure.runOn_bind_eq_error.mpr (.inl (hfails _))

/-- A key file that was written is ready again, with the entries it was written with. -/
theorem Ready.again (h : Ready path before made earlier)
    (hfields : ∀ field ∈ [plugin.name, plugin.version, base, locale.toText], '\n' ∉ field)
    (hentries : Writable entries) :
    Ready path (withEntries plugin path base locale made entries)
      (withEntries plugin path base locale made entries) entries := by
  have htext : (withEntries plugin path base locale made entries).text? path =
      some (render plugin base locale entries) :=
    (TextFile.write_eq_ok (TextFile.write_of_canWrite h.canWrite [] _)).2
  have hcan := World.canWrite_of_text? htext h.canWrite.allowed
  refine ⟨TextFile.makeParent_of_canWrite hcan, ?_, hcan⟩
  exact PropertyFile.readEntries_eq_ok.mpr
    ⟨rfl, .inr ⟨_, htext, (entries_render (line_of_mem_header hfields) hentries).symm⟩⟩

end

/-- Two writings are one writing of the merged messages, and fail where it does. -/
theorem write_bind_write (path : Path)
    (hfields : ∀ field ∈ [plugin.name, plugin.version, base, locale.toText], '\n' ∉ field)
    {first : Messages} (hfirst : Writable first) (second : Messages) (before : World) :
    let writing := write plugin path base locale
    let ran := (writing first >>= fun _ => writing second).runOn before
    let once := (writing (first.merge second)).runOn before
    ran.2 = once.2 ∧ ran.1.map Stats.written = once.1.map Stats.written := by
  intro writing ran once
  rcases ready_or_fails plugin path base locale before with
    ⟨made, earlier, hready⟩ | ⟨failure, after, hfails⟩
  · have hagain := hready.again hfields
      ((PropertyFile.writable_of_readEntries hready.read).merge hfirst)
    have hran : ran = _ := Procedure.runOn_bind_eq_ok.mpr
      ⟨_, _, hready.write first, hagain.write second⟩
    have honce : once = _ := hready.write (first.merge second)
    have hkeys : (stats (earlier.merge first) second).written =
        (stats earlier (first.merge second)).written :=
      congrArg OrderedMap.size (OrderedMap.merge_assoc earlier first second)
    rw [hran, honce, withEntries_withEntries, OrderedMap.merge_assoc]
    exact ⟨rfl, congrArg Except.ok hkeys⟩
  · have hran : ran = (.error failure, after) := Procedure.runOn_bind_eq_error.mpr (.inl (hfails first))
    have honce : once = (.error failure, after) := hfails _
    rw [hran, honce]
    exact ⟨rfl, rfl⟩

/-- Laying messages over others is associative, with no messages as its identity, and writings to a
key file compose as it does: one after another they leave the machine, whatever the file was, as one
writing of the merged messages, and a repeated writing leaves it as one. -/
theorem writes_compose :
    (∀ a b c : Messages, (a.merge b).merge c = a.merge (b.merge c) ∧
      OrderedMap.empty.merge a = a ∧ a.merge .empty = a) ∧
    ∀ (plugin : Plugin) (path : Path) (base : Text) (locale : Locale) (first second : Messages)
      (before : World),
      (∀ field ∈ [plugin.name, plugin.version, base, locale.toText], '\n' ∉ field) →
      Writable first →
      let writing := write plugin path base locale
      let ran := (writing first >>= fun _ => writing second).runOn before
      let once := (writing (first.merge second)).runOn before
      ran.2 = once.2 ∧ ran.1.map Stats.written = once.1.map Stats.written ∧
        ((writing first >>= fun _ => writing first).runOn before).2 =
          ((writing first).runOn before).2 := by
  refine ⟨fun a b c => ⟨OrderedMap.merge_assoc a b c, OrderedMap.empty_merge a,
    OrderedMap.merge_empty a⟩, ?_⟩
  intro plugin path base locale first second before hfields hfirst writing ran once
  obtain ⟨hworld, hwritten⟩ := write_bind_write path hfields hfirst second before
  refine ⟨hworld, hwritten, ?_⟩
  rw [(write_bind_write path hfields hfirst first before).1, OrderedMap.merge_self]

/-- Two writings that share a key with each other and with the earlier file. -/
theorem writes_compose_page :
    let setup := KeyExtraction.sampleSetup KeyExtraction.english
    let path := setup.destination KeyExtraction.page
    let before := KeyExtraction.pageWorld [] "# a=b\nold = Curated\n k = Stale".toList
    let writing := write setup.plugin path "p".toList setup.locale
    let first := .ofList [("new".toList, "#a".toList), ("k".toList, "x=y".toList)]
    let second := .ofList [("last".toList, "z".toList), ("k".toList, [])]
    (∀ field ∈ [setup.plugin.name, setup.plugin.version, "p".toList, setup.locale.toText],
      '\n' ∉ field) ∧ Writable first ∧
      ((writing first >>= fun _ => writing second).runOn before).2.text? path = some
        "# P - Version: 1\n# MessageKeys for: p (US_en)\n\nold=Curated\nk=\nnew=#a\nlast=z\n".toList ∧
      ((writing first >>= fun _ => writing first).runOn before).2 =
        ((writing first).runOn before).2 := by
  intro setup path before writing first second
  have hfields : ∀ field ∈ [setup.plugin.name, setup.plugin.version, "p".toList,
      setup.locale.toText], '\n' ∉ field := by decide +kernel
  have hfirst : Writable first := by decide +kernel
  obtain ⟨hran, -, hsame⟩ :=
    writes_compose.2 setup.plugin path "p".toList setup.locale first second before hfields hfirst
  refine ⟨hfields, hfirst, ?_, hsame⟩
  rw [hran]
  decide +kernel

end MessageKeys.KeyFile
