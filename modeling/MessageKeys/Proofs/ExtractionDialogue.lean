import MessageKeys.Proofs.ExtractionEnds
import MessageKeys.Proofs.Looking

/-!
# What a run changes and what it asks

A run takes one source after the other. Each source that it reaches raises its questions: first the
one about the keys, if one of them stands twice, then the one about the modification. The run ends
with the first source whose modification is declined or whose work fails. Whatever it changes
belongs to a source whose modification was agreed to.
-/
namespace MessageKeys.KeyExtraction

open Markup (scan)

variable {colors : Bool} {setup : Setup} {source : Path} {sources : List Path}
  {before after : World} {document : Text} {location : Location}
  {result : Except Failure (Option Extracted)}

/-- The question about the keys of a document, if it is asked. -/
def keyQuestions (document : Text) : List Text :=
  if (scan document).duplicates.isEmpty then [] else [Markup.reindexQuestion]

/-- The questions about a source, in their order. Of a source that cannot be read nothing is asked. -/
def questions (source : Path) (world : World) : List Text :=
  match world.text? source with
  | none => []
  | some document => keyQuestions document ++ [modifyQuestion]

/-- What is shown of questions; nothing is if all was agreed to beforehand. -/
def shown (agreed : Bool) (prompts : List Text) : Text :=
  if agreed then [] else prompts.flatMap Confirmation.question

/-- The input that is left when so many questions were put. -/
def afterQuestions (agreed : Bool) : Nat → List UInt8 → List UInt8
  | 0, input => input
  | count + 1, input => afterQuestions agreed count (afterQuestion agreed input)

/-- Whether the modification of a source is agreed to: its question is the last one. -/
def confirmed (setup : Setup) (source : Path) (world : World) : Bool :=
  match world.text? source with
  | none => false
  | some document =>
    saysYes setup.agreed (afterQuestions setup.agreed (keyQuestions document).length world.input)

theorem shown_append (agreed : Bool) (prompts more : List Text) :
    shown agreed (prompts ++ more) = shown agreed prompts ++ shown agreed more := by
  cases agreed <;> simp [shown]

theorem afterQuestions_add (agreed : Bool) (count more : Nat) (input : List UInt8) :
    afterQuestions agreed (count + more) input =
      afterQuestions agreed more (afterQuestions agreed count input) := by
  induction count generalizing input with
  | zero => simp [afterQuestions]
  | succ count ih => simp [afterQuestions, Nat.succ_add, ih]

theorem confirm_output (agreed : Bool) (prompt : Text) (world : World) :
    ((confirm agreed prompt).run world).2.output = world.output ++ shown agreed [prompt] := by
  cases agreed with
  | true => simp [confirm_run_unasked, shown]
  | false => simp [confirm_run_asked, shown, World.answered]

/-- The question about the keys is put exactly if it is one. -/
theorem mayReindex_run (agreed : Bool) (document : Text) (world : World) :
    ((mayReindex agreed document).run world).2.input =
        afterQuestions agreed (keyQuestions document).length world.input ∧
      ((mayReindex agreed document).run world).2.output =
        world.output ++ shown agreed (keyQuestions document) := by
  unfold mayReindex keyQuestions
  split
  · simp [afterQuestions, shown]
  · exact ⟨(confirm_run agreed _ world).2, confirm_output agreed _ world⟩

theorem asked_run (setup : Setup) (document : Text) (world : World) :
    let prompts := keyQuestions document ++ [modifyQuestion]
    (asked setup document world).1 =
        saysYes setup.agreed (afterQuestions setup.agreed (keyQuestions document).length world.input) ∧
      (asked setup document world).2.input =
        afterQuestions setup.agreed prompts.length world.input ∧
      (asked setup document world).2.output = world.output ++ shown setup.agreed prompts := by
  intro prompts
  obtain ⟨hinput, houtput⟩ := mayReindex_run setup.agreed document world
  obtain ⟨hanswer, hleft⟩ := confirm_run setup.agreed modifyQuestion
    ((mayReindex setup.agreed document).run world).2
  refine ⟨?_, ?_, ?_⟩
  · rw [asked, hanswer, hinput]
  · rw [asked, hleft, hinput, List.length_append, afterQuestions_add]
    rfl
  · rw [asked, confirm_output, houtput, shown_append, List.append_assoc]

/-- The world in which the questions about a source are answered. -/
def consulted (setup : Setup) (source : Path) (world : World) : World :=
  match world.text? source with
  | none => world
  | some document => (asked setup document world).2

theorem consulted_run (setup : Setup) (source : Path) (world : World) :
    (consulted setup source world).input =
        afterQuestions setup.agreed (questions source world).length world.input ∧
      (consulted setup source world).output =
        world.output ++ shown setup.agreed (questions source world) := by
  unfold consulted questions
  split
  · simp [afterQuestions, shown]
  · next document _ => exact (asked_run setup document world).2

theorem view_consulted {γ : Type} (view : World → γ) (hview : World.OffDialogue view)
    (setup : Setup) (source : Path) (world : World) :
    view (consulted setup source world) = view world := by
  unfold consulted
  split
  · rfl
  · exact view_asked view hview setup _ world

namespace Ends

variable {γ : Type} {view : World → γ}

/-- From the answers on only the files of the source are worked on. -/
theorem view_after (h : Ends setup source before result after)
    (hview : World.Spared view (written setup source)) :
    view after = view (consulted setup source before) := by
  have hcopies : World.Spared view (backups setup source) :=
    hview.mono (List.subset_append_left _ _)
  have hsaving (document : Text) :
      view (copied setup source document before) = view (asked setup document before).2 :=
    Backup.keeps_save _ _ hcopies _
  have hmerging (messages : Messages) : Program.Keeps view (mergeKeys setup source messages).run :=
    KeyFile.keeps_write (hview.mono (by simp [written])) _ _ _ _
  have hwriting (content : Text) : Program.Keeps view (rewriteSource source content).run :=
    TextFile.keeps_write (hview.mono (by simp [written])) _ _
  cases h with
  | unread hnone => rw [consulted, hnone]
  | declined hdocument hno => rw [consulted, hdocument]
  | unmerged hdocument hyes hmerge =>
    rw [consulted, hdocument]
    exact ((hmerging _).ran hmerge).trans (hsaving _)
  | unwritten hdocument hyes hmerge hwrite =>
    rw [consulted, hdocument]
    exact ((hwriting _).ran hwrite).trans (((hmerging _).ran hmerge).trans (hsaving _))
  | extracted hdocument hyes hmerge hwrite =>
    rw [consulted, hdocument]
    exact ((hwriting _).ran hwrite).trans (((hmerging _).ran hmerge).trans (hsaving _))

theorem working (h : Ends setup source before result after) : after.working = before.working :=
  (h.view_after (World.OffTree.spared (fun _ _ => rfl) _)).trans
    (view_consulted World.working (fun _ _ _ => rfl) setup _ _)

/-- A yes to the modification is a yes to the last question. -/
theorem confirmed_eq (hdocument : before.text? source = some document) :
    confirmed setup source before = (asked setup document before).1 := by
  rw [confirmed, hdocument, (asked_run setup document before).1]

/-- Without a yes the contents stay. -/
theorem eq_consulted (h : Ends setup source before result after)
    (hno : confirmed setup source before = false) : after = consulted setup source before := by
  cases h with
  | unread hnone => rw [consulted, hnone]
  | declined hdocument _ => rw [consulted, hdocument]
  | unmerged hdocument hyes _ => simp [confirmed_eq hdocument, hyes] at hno
  | unwritten hdocument hyes _ _ => simp [confirmed_eq hdocument, hyes] at hno
  | extracted hdocument hyes _ _ => simp [confirmed_eq hdocument, hyes] at hno

end Ends

/-- One source of a run: the worlds before and after the work on it, and how that ended. -/
structure Turn where
  source : Path
  before : World
  result : Except Failure (Option Extracted)
  after : World

namespace Turn

/-- What is shown behind the work on a source. -/
def report (colors : Bool) (turn : Turn) : Text :=
  match turn.result with
  | .error _ => []
  | .ok none => cancelledLine
  | .ok (some extracted) =>
    Output.keysWritten colors turn.source.text extracted.destination.text extracted.stats

/-- What a run does in a turn: it puts the questions about the source and no others. The work ends
as the answer to the last one says, or it fails; contents change only if that answer was yes, and
only those of the source, its key file and their copies. -/
structure Sound (setup : Setup) (turn : Turn) : Prop where
  ran : (extractFile setup turn.source).runOn turn.before = (turn.result, turn.after)
  input : turn.after.input =
    afterQuestions setup.agreed (questions turn.source turn.before).length turn.before.input
  output : turn.after.output =
    turn.before.output ++ shown setup.agreed (questions turn.source turn.before)
  declined : turn.result = .ok none ↔
    questions turn.source turn.before ≠ [] ∧ confirmed setup turn.source turn.before = false
  extracted : ∀ extracted, turn.result = .ok (some extracted) →
    confirmed setup turn.source turn.before = true
  working : turn.after.working = turn.before.working
  changes : ∀ location, turn.after.tree.content? location ≠ turn.before.tree.content? location →
    confirmed setup turn.source turn.before = true ∧
      location ∈ (written setup turn.source).map (Path.place turn.before.working)

theorem sound {setup : Setup} {source : Path} {before after : World}
    {result : Except Failure (Option Extracted)}
    (hran : (extractFile setup source).runOn before = (result, after)) :
    Sound setup ⟨source, before, result, after⟩ := by
  have hends := extractFile_ends setup source before
  rw [hran] at hends
  change Ends setup source before result after at hends
  obtain ⟨hinput, houtput⟩ := consulted_run setup source before
  refine ⟨hran, ?_, ?_, ?_, ?_, hends.working, fun location hchange => ?_⟩
  · exact (hends.view_after (World.OffTree.spared (fun _ _ => rfl) _)).trans hinput
  · exact (hends.view_after (World.OffTree.spared (fun _ _ => rfl) _)).trans houtput
  · cases hends with
    | unread hnone => simp [questions, hnone]
    | declined hdocument hno => simp [questions, hdocument, Ends.confirmed_eq hdocument, hno]
    | unmerged hdocument hyes _ => simp [Ends.confirmed_eq hdocument, hyes]
    | unwritten hdocument hyes _ _ => simp [Ends.confirmed_eq hdocument, hyes]
    | extracted hdocument hyes _ _ => simp [Ends.confirmed_eq hdocument, hyes]
  · rintro extracted rfl
    cases hends with
    | extracted hdocument hyes _ _ => simp [Ends.confirmed_eq hdocument, hyes]
  · have htree : (consulted setup source before).tree = before.tree :=
      view_consulted World.tree (fun _ _ _ => rfl) setup _ _
    dsimp only at hchange ⊢
    constructor
    · by_contra hno
      rw [hends.eq_consulted (by simpa using hno), htree] at hchange
      exact hchange rfl
    · by_contra hl
      have hview := (hends.view_after (World.spared_aside _ location)).trans
        (view_consulted (World.aside _ location) (fun _ _ _ => rfl) setup _ _)
      exact hchange (World.content?_of_aside hview hl)

end Turn

/-- The turns of a run through the sources. It ends with the sources, or with the first turn in
which the user declines or the work fails. -/
inductive Turns (colors : Bool) (setup : Setup) :
    List Path → World → List Turn → Except Failure ExitStatus → World → Prop where
  | done (world : World) : Turns colors setup [] world [] (.ok .success) world
  | declined {source : Path} {rest : List Path} {before after : World}
      (ran : (extractFile setup source).runOn before = (.ok none, after)) :
      Turns colors setup (source :: rest) before [⟨source, before, .ok none, after⟩]
        (.ok .success) (after.printed cancelledLine)
  | failed {source : Path} {rest : List Path} {before after : World} {failure : Failure}
      (ran : (extractFile setup source).runOn before = (.error failure, after)) :
      Turns colors setup (source :: rest) before [⟨source, before, .error failure, after⟩]
        (.error failure) after
  | extracted {source : Path} {rest : List Path} {before between after : World}
      {extracted : Extracted} {turns : List Turn} {status : Except Failure ExitStatus}
      (ran : (extractFile setup source).runOn before = (.ok (some extracted), between))
      (others : Turns colors setup rest
        (between.printed (Turn.report colors ⟨source, before, .ok (some extracted), between⟩))
        turns status after) :
      Turns colors setup (source :: rest) before
        (⟨source, before, .ok (some extracted), between⟩ :: turns) status after

theorem exists_turns (colors : Bool) (setup : Setup) (sources : List Path) (before : World) :
    ∃ turns, Turns colors setup sources before turns
      ((extractFiles colors setup sources).runOn before).1
      ((extractFiles colors setup sources).runOn before).2 := by
  induction sources generalizing before with
  | nil => exact ⟨[], .done before⟩
  | cons source rest ih =>
    rw [extractFiles, Procedure.runOn_bind]
    cases hran : (extractFile setup source).runOn before with
    | mk result after =>
      cases result with
      | error failure => exact ⟨_, .failed hran⟩
      | ok found =>
        cases found with
        | none => exact ⟨_, .declined hran⟩
        | some extracted =>
          obtain ⟨turns, hturns⟩ := ih (after.printed
            (Turn.report colors ⟨source, before, .ok (some extracted), after⟩))
          exact ⟨_, .extracted hran hturns⟩

namespace Turns

variable {turns : List Turn} {status : Except Failure ExitStatus}

theorem sound (h : Turns colors setup sources before turns status after) :
    ∀ turn ∈ turns, turn.Sound setup := by
  induction h with
  | done world => simp
  | declined ran => simpa using Turn.sound ran
  | failed ran => simpa using Turn.sound ran
  | extracted ran others ih => exact List.forall_mem_cons.mpr ⟨Turn.sound ran, ih⟩

/-- The input of a run is used up by the questions of its turns, one line for each. -/
theorem input (h : Turns colors setup sources before turns status after) :
    after.input = afterQuestions setup.agreed
      (turns.flatMap fun turn => questions turn.source turn.before).length before.input := by
  induction h with
  | done world => rfl
  | declined ran => simpa [World.printed] using (Turn.sound ran).input
  | failed ran => simpa using (Turn.sound ran).input
  | extracted ran others ih =>
    rw [ih, List.flatMap_cons, List.length_append, afterQuestions_add]
    exact congrArg _ (Turn.sound ran).input

/-- What a run shows are the questions of its turns, each followed by what came of it. -/
theorem output (h : Turns colors setup sources before turns status after) :
    after.output = before.output ++ turns.flatMap fun turn =>
      shown setup.agreed (questions turn.source turn.before) ++ turn.report colors := by
  induction h with
  | done world => simp
  | declined ran =>
    have hturn := (Turn.sound ran).output
    dsimp only at hturn
    simp [World.printed, hturn, Turn.report]
  | failed ran =>
    have hturn := (Turn.sound ran).output
    dsimp only at hturn
    simp [hturn, Turn.report]
  | extracted ran others ih =>
    have hturn := (Turn.sound ran).output
    dsimp only at hturn
    simp [ih, World.printed, hturn]

theorem working (h : Turns colors setup sources before turns status after) :
    after.working = before.working := by
  induction h with
  | done world => rfl
  | declined ran => exact (Turn.sound ran).working
  | failed ran => exact (Turn.sound ran).working
  | extracted ran others ih => exact ih.trans (Turn.sound ran).working

/-- Each change of a run was made in a turn. -/
theorem changes (h : Turns colors setup sources before turns status after)
    (hchange : after.tree.content? location ≠ before.tree.content? location) :
    ∃ turn ∈ turns, confirmed setup turn.source turn.before = true ∧
      location ∈ (written setup turn.source).map (Path.place before.working) := by
  induction h with
  | done world => exact absurd rfl hchange
  | declined ran => exact ⟨_, by simp, (Turn.sound ran).changes location hchange⟩
  | failed ran => exact ⟨_, by simp, (Turn.sound ran).changes location hchange⟩
  | @extracted source rest before between after extracted turns status ran others ih =>
    by_cases hfirst : between.tree.content? location = before.tree.content? location
    · obtain ⟨turn, hturn, hyes, hl⟩ := ih (fun he => hchange (he.trans hfirst))
      rw [World.printed_working, (Turn.sound ran).working] at hl
      exact ⟨turn, List.mem_cons_of_mem _ hturn, hyes, hl⟩
    · exact ⟨_, by simp, (Turn.sound ran).changes location hfirst⟩

end Turns

/-- What a command works with: the locale that it was given, the plugin and the folders of the project,
and the sources that its words lead to. -/
structure Provided (arguments : CreateKeys) (before : World) (setup : Setup) (sources : List Path) :
    Prop where
  project : ∃ project : Project,
    (Project.load arguments.messageKeysDir).runOn before = (.ok project, before) ∧
      (Plugin.load (project.path project.settings.pluginManifest)).runOn before =
        (.ok setup.plugin, before) ∧
      setup.keysFolder = project.keysFolder ∧
      setup.backupFolder = project.path project.settings.backupDir
  locale : Locale.parse arguments.locale = .ok setup.locale
  sources : (SourceFiles.expand arguments.sources).runOn before = (.ok sources, before)
  agreed : setup.agreed = arguments.yes

/-- The failures of a command that does not find what it is to work with. -/
inductive Unprovided (arguments : CreateKeys) (before : World) : Failure → Prop where
  | project {failure : Failure}
      (h : (Project.load arguments.messageKeysDir).runOn before = (.error failure, before)) :
      Unprovided arguments before failure
  | locale {failure : Failure} (h : Locale.parse arguments.locale = .error failure) :
      Unprovided arguments before failure
  | plugin {project : Project} {failure : Failure}
      (hproject : (Project.load arguments.messageKeysDir).runOn before = (.ok project, before))
      (h : (Plugin.load (project.path project.settings.pluginManifest)).runOn before =
        (.error failure, before)) :
      Unprovided arguments before failure
  | sources {failure : Failure}
      (h : (SourceFiles.expand arguments.sources).runOn before = (.error failure, before)) :
      Unprovided arguments before failure

/-- A command runs with what it is to work with, or fails for want of it and changes nothing. -/
theorem run_provided_or_fails (colors : Bool) (arguments : CreateKeys) (before : World) :
    (∃ failure, Unprovided arguments before failure ∧
        (run colors arguments).runOn before = (.error failure, before)) ∨
      ∃ setup sources, Provided arguments before setup sources ∧
        (run colors arguments).runOn before = (extractFiles colors setup sources).runOn before := by
  unfold run
  rcases Procedure.runOn_bind_of_looks (Project.keeps_load arguments.messageKeysDir) _ before with
    ⟨project, hproject, hran⟩ | ⟨failure, hfails, hran⟩
  swap
  · exact .inl ⟨failure, .project hfails, hran⟩
  rw [hran]
  rcases Procedure.runOn_bind_of_looks (.ofExcept (Locale.parse arguments.locale)) _ before with
    ⟨locale, hlocale, hran⟩ | ⟨failure, hfails, hran⟩
  swap
  · exact .inl ⟨failure, .locale (Prod.mk.inj hfails).1, hran⟩
  rw [hran]
  rcases Procedure.runOn_bind_of_looks
    (Plugin.keeps_load (project.path project.settings.pluginManifest)) _ before with
    ⟨plugin, hplugin, hran⟩ | ⟨failure, hfails, hran⟩
  swap
  · exact .inl ⟨failure, .plugin hproject hfails, hran⟩
  rw [hran]
  rcases Procedure.runOn_bind_of_looks (SourceFiles.keeps_expand arguments.sources) _ before with
    ⟨sources, hsources, hran⟩ | ⟨failure, hfails, hran⟩
  swap
  · exact .inl ⟨failure, .sources hfails, hran⟩
  exact .inr ⟨_, sources, ⟨⟨project, hproject, hplugin, rfl, rfl⟩, (Prod.mk.inj hlocale).1, hsources,
    rfl⟩, hran⟩

/-- A run changes only what was agreed to. It takes the sources in their order, one turn each, and
stops behind the first one whose modification is declined or whose work fails. It puts the questions
of its turns and no others. Every file whose content is another one afterwards is a source whose
modification was agreed to, the key file of such a source, or the copy of one of both. The command is
such a run over the sources that its words lead to, with what the project and the arguments provide;
where something of that is not found, it breaks off with nothing changed. -/
theorem extractFiles_changes_confirmed (colors : Bool) :
    (∀ setup sources before,
      let ran := (extractFiles colors setup sources).runOn before
      ∃ turns, Turns colors setup sources before turns ran.1 ran.2 ∧
        (∀ turn ∈ turns, turn.Sound setup) ∧
        ran.2.input = afterQuestions setup.agreed
          (turns.flatMap fun turn => questions turn.source turn.before).length before.input ∧
        ran.2.output = before.output ++ (turns.flatMap fun turn =>
          shown setup.agreed (questions turn.source turn.before) ++ turn.report colors) ∧
        ∀ location, ran.2.tree.content? location ≠ before.tree.content? location →
          ∃ turn ∈ turns, confirmed setup turn.source turn.before = true ∧
            location ∈ (written setup turn.source).map (Path.place before.working)) ∧
    ∀ arguments before,
      (∃ failure, Unprovided arguments before failure ∧
          (run colors arguments).runOn before = (.error failure, before)) ∨
        ∃ setup sources, Provided arguments before setup sources ∧
          (run colors arguments).runOn before =
            (extractFiles colors setup sources).runOn before := by
  refine ⟨fun setup sources before => ?_, run_provided_or_fails colors⟩
  obtain ⟨turns, hturns⟩ := exists_turns colors setup sources before
  exact ⟨turns, hturns, hturns.sound, hturns.input, hturns.output, fun location => hturns.changes⟩

end MessageKeys.KeyExtraction
