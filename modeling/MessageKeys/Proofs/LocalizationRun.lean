import Mathlib.Data.List.ProdSigma
import MessageKeys.Proofs.Dialogue
import MessageKeys.Proofs.LanguageFile
import MessageKeys.Proofs.Localization.Rerun
import MessageKeys.Proofs.Localization.Target
import MessageKeys.Proofs.Looking

/-!
# What a localization of a project changes

A run first finds out what is to be translated, and up to that it makes the languages file at most.
Then it asks, if a target file would be updated, and makes its calls, each pair of a file and a target
once. A call that fails changes no file, and the others are made all the same.
-/
namespace MessageKeys

variable {γ : Type} {view : World → γ} {before after : World} {location : Location}

/-- A localization changes no file but its target, and that only if it succeeds, where a failing write
leaves the files. -/
theorem Localization.Translator.changes_of_translateFile {translator : Translator}
    {source target : Path} {locale : Locale} {attempt : Attempt}
    (hran : (translator.translateFile source locale target).run before = (attempt, after))
    (hclean : before.tree.FailsCleanly)
    (hchange : after.tree.content? location ≠ before.tree.content? location) :
    attempt.result.isOk ∧ location = target.place before.working := by
  rcases translateFile_ends hran with ⟨failure, rfl, rfl⟩ |
    ⟨content, earlier, outcomes, requests, written, -, -, -, hwrote, rfl⟩
  · exact absurd rfl hchange
  · obtain ⟨rfl, hplace, -⟩ :=
      TextFile.content?_of_prepared (TextFile.writesOnly_makeParent target) hwrote hclean hchange
    exact ⟨rfl, hplace⟩

namespace LocalizationRun

open MessageKeys.Localization (Attempt Translator english folderOf keeps_translateFile keyFile
  sampleFolder spanish targetPath)

/-- What a run is to translate. -/
structure Plan where
  settings : Settings
  source : Locale
  targets : List Locale
  folder : Path
  files : List Path
  deriving DecidableEq

/-- Finds the files and the target locales, once the languages are known. -/
def planFrom (arguments : Translate) (project : Project) (source : Locale)
    (languages : List Language) : Procedure Plan := do
  let codes ← Procedure.ofExcept (requestedCodes languages arguments.targets)
  let files ← keyFiles project.keysFolder source
  return ⟨override project.settings arguments, source, targetLocales source codes,
    project.keysFolder, files⟩

/-- Finds out what is to be translated. -/
def plan (arguments : Translate) : Procedure Plan := do
  let project ← Project.load arguments.messageKeysDir
  let source ← Procedure.ofExcept (override project.settings arguments).locale
  let languages ← LanguageFile.load (project.path project.settings.languagesFile)
  planFrom arguments project source languages

/-- The languages file of a project was made at a location. -/
def Listed (arguments : Translate) (before after : World) (location : Location) : Prop :=
  ∃ project, (Project.load arguments.messageKeysDir).runOn before = (.ok project, before) ∧
    LanguageFile.Created (project.path project.settings.languagesFile) before after location

section plan

variable {arguments : Translate}

theorem Listed.of_content {between : World} (h : Listed arguments before between location)
    (hsame : after.tree.content? location = between.tree.content? location) :
    Listed arguments before after location := by
  obtain ⟨project, hproject, hcreated⟩ := h
  exact ⟨project, hproject, hcreated.place, hcreated.missing, hcreated.earlier,
    hsame.trans hcreated.content⟩

theorem keeps_keyFiles (folder : Path) (locale : Locale) :
    Program.Keeps view (keyFiles folder locale) :=
  .bind (.looking rfl) fun _ => .pure _

theorem keeps_planFrom (arguments : Translate) (project : Project) (source : Locale)
    (languages : List Language) :
    Program.Keeps view (planFrom arguments project source languages).run :=
  .bindRun (.ofExcept _) fun _ => .bindRun (.lift (keeps_keyFiles _ _)) fun _ => .pure _

theorem keeps_plan (hview : World.OffTree view) (arguments : Translate) :
    Program.Keeps view (plan arguments).run :=
  .bindRun (Project.keeps_load _) fun project => .bindRun (.ofExcept _) fun source =>
    .bindRun (LanguageFile.keeps_load (hview.spared _)) fun languages =>
      keeps_planFrom arguments project source languages

/-- Whatever comes of it, planning changes nothing but the file tree. -/
theorem world_of_plan (arguments : Translate) (before : World) :
    ((plan arguments).runOn before).2 =
      { before with tree := ((plan arguments).runOn before).2.tree } := by
  have hoff : World.OffTree fun world : World => { world with tree := .empty } := fun _ _ => rfl
  exact congrArg (fun world : World => { world with tree := ((plan arguments).runOn before).2.tree })
    ((keeps_plan hoff arguments).runOn before)

/-- Of the contents it changes none but by making the languages file, if a failing write leaves the
files. -/
theorem listed_of_plan {result : Except Failure Plan}
    (hran : (plan arguments).runOn before = (result, after)) (hclean : before.tree.FailsCleanly)
    (hchange : after.tree.content? location ≠ before.tree.content? location) :
    Listed arguments before after location := by
  unfold plan at hran
  rcases Procedure.runOn_bind_of_looks (Project.keeps_load arguments.messageKeysDir) _ before with
    ⟨project, hproject, hnext⟩ | ⟨failure, -, hnext⟩
  · rw [hnext] at hran
    rcases Procedure.runOn_bind_of_looks
      (.ofExcept (override project.settings arguments).locale) _ before with
      ⟨source, -, hnext⟩ | ⟨failure, -, hnext⟩
    · rw [hnext] at hran
      obtain rfl : after =
          ((LanguageFile.load (project.path project.settings.languagesFile)).runOn before).2 := by
        rw [← Procedure.snd_runOn_bind_of_looks (keeps_planFrom arguments project source), hran]
      exact ⟨project, hproject, LanguageFile.created_of_load (Prod.eta _).symm hclean hchange⟩
    · obtain ⟨-, rfl⟩ := Prod.mk.inj (hnext.symm.trans hran)
      exact absurd rfl hchange
  · obtain ⟨-, rfl⟩ := Prod.mk.inj (hnext.symm.trans hran)
    exact absurd rfl hchange

/-- A plan has the key files that are found and the target locales of the codes that are asked for. -/
theorem plan_eq_ok {found : Plan} (h : (plan arguments).runOn before = (.ok found, after)) :
    found.files = ((keyFiles found.folder found.source).run after).1 ∧
      ∃ languages codes, requestedCodes languages arguments.targets = .ok codes ∧
        found.targets = targetLocales found.source codes := by
  obtain ⟨project, _, -, h⟩ := Procedure.runOn_bind_eq_ok.mp h
  obtain ⟨source, _, -, h⟩ := Procedure.runOn_bind_eq_ok.mp h
  obtain ⟨languages, listed, -, h⟩ := Procedure.runOn_bind_eq_ok.mp h
  obtain ⟨codes, known, hcodes, h⟩ := Procedure.runOn_bind_eq_ok.mp h
  rw [Procedure.runOn_liftM_bind] at h
  obtain ⟨rfl, rfl⟩ := Procedure.runOn_pure_eq_ok.mp h
  exact ⟨rfl, languages, codes, (Prod.mk.inj hcodes).1, rfl⟩

end plan

namespace Plan

def pairs (plan : Plan) : List (Path × Locale) :=
  LocalizationRun.pairs plan.files plan.targets

def translator (plan : Plan) : Translator :=
  ⟨.builtin, plan.settings.options⟩

/-- The files that the calls of a plan write. -/
def targetPaths (plan : Plan) : List Path :=
  plan.pairs.map fun (file, target) => targetPath file plan.source target

/-- Whether the user is to be asked: a target file would be updated, and that was not agreed to. -/
def asks (agreed : Bool) (plan : Plan) (world : World) : Bool :=
  !agreed && plan.targetPaths.any fun path => (world.tree.kind? world.working path).isSome

/-- Whether the target files may be written, and the world in which that is known. -/
def consulted (agreed : Bool) (plan : Plan) (world : World) : Bool × World :=
  if plan.asks agreed world then
    (Confirmation.accepts (Confirmation.nextLine world.input).1, world.answered updateQuestion)
  else (true, world)

/-- What is shown behind the calls. -/
def closing (colors : Bool) (plan : Plan) (tally : Tally) : Text :=
  Output.progressTable colors tally.tracker ++
    if tally.failed = 0 then
      Output.success colors ("Translated ".toList ++ Text.ofNat plan.files.length ++
        " file(s) into ".toList ++ Text.ofNat plan.targets.length ++ " language(s)".toList)
    else
      Output.failure colors (Text.ofNat tally.failed ++ " of ".toList ++
        Text.ofNat (plan.files.length * plan.targets.length) ++ " translation(s) failed".toList)

/-- Asks if need be, and translates. -/
def carryOut (colors agreed : Bool) (plan : Plan) : Procedure ExitStatus := do
  if plan.files.isEmpty then
    Procedure.print (Output.failure colors ("No *.".toList ++ plan.source.toText ++
      ".properties files found in ".toList ++ plan.folder.text))
    return .failure
  else if plan.targets.isEmpty then
    Procedure.print (Output.failure colors "No target languages to translate to".toList)
    return .failure
  else if ← mayUpdate agreed plan.source plan.pairs then
    translateFiles colors plan.settings.options plan.source plan.files plan.targets
  else
    Procedure.print cancelledLine
    return .success

end Plan

/-- No pair is planned twice. -/
theorem nodup_pairs {arguments : Translate} {found : Plan}
    (h : (plan arguments).runOn before = (.ok found, after))
    (hnames : ∀ child ∈ after.tree.children after.working found.folder, '/' ∉ child.1) :
    found.pairs.Nodup := by
  obtain ⟨hfiles, languages, codes, -, htargets⟩ := plan_eq_ok h
  have hf : found.files.Nodup := hfiles ▸ Localization.nodup_keyFiles hnames
  have ht : found.targets.Nodup := htargets ▸ Localization.nodup_targetLocales codes
  exact hf.product ht

/-- A run makes a plan and carries it out. -/
theorem run_eq (colors : Bool) (arguments : Translate) :
    run colors arguments = plan arguments >>= Plan.carryOut colors arguments.yes := by
  simp only [run, plan, planFrom, bind_assoc, pure_bind]
  rfl

theorem anyThere_run (paths : List Path) (world : World) :
    (anyThere paths).run world =
      (paths.any fun path => (world.tree.kind? world.working path).isSome, world) := by
  induction paths with
  | nil => rfl
  | cons path rest ih =>
    rw [anyThere, Program.run_bind, TextFile.isThere_run]
    cases h : (world.tree.kind? world.working path).isSome with
    | true => simp [h]
    | false => simpa [h] using ih

theorem mayUpdate_run (agreed : Bool) (plan : Plan) (world : World) :
    (mayUpdate agreed plan.source plan.pairs).run world = plan.consulted agreed world := by
  have hthere : mayUpdate agreed plan.source plan.pairs = do
      if ← anyThere plan.targetPaths then confirm agreed updateQuestion else return true := rfl
  rw [hthere, Program.run_bind, anyThere_run, Plan.consulted, Plan.asks]
  cases agreed with
  | true => split <;> rfl
  | false =>
    rw [Bool.not_false, Bool.true_and]
    split <;> rfl

/-- One call of a run: the worlds before and after it, and what came of it. -/
structure Turn where
  file : Path
  target : Locale
  before : World
  attempt : Attempt
  after : World

namespace Turn

def pair (turn : Turn) : Path × Locale :=
  (turn.file, turn.target)

def succeeded (turn : Turn) : Bool :=
  turn.attempt.result.isOk

/-- What is shown behind a call. -/
def report (colors : Bool) (turn : Turn) : Text :=
  match turn.attempt.result with
  | .ok _ => []
  | .error failure =>
    Output.failure colors ("Failed to translate ".toList ++ turn.file.text ++ " to ".toList ++
      turn.target.toText ++ ": ".toList ++ failure.message)

/-- The tally with a call counted in. -/
def count (tally : Tally) (turn : Turn) : Tally :=
  ⟨tally.tracker.replay turn.attempt.journal,
    if turn.succeeded then tally.failed else tally.failed + 1⟩

end Turn

/-- The calls of a run, one for each pair, whatever comes of the ones before it. -/
inductive Turns (colors : Bool) (translator : Translator) (source : Locale) :
    List (Path × Locale) → World → List Turn → World → Prop where
  | done (world : World) : Turns colors translator source [] world [] world
  | next {file : Path} {target : Locale} {rest : List (Path × Locale)} {attempt : Attempt}
      {before between after : World} {turns : List Turn}
      (ran : (translator.translateFile file target (targetPath file source target)).run before =
        (attempt, between))
      (others : Turns colors translator source rest
        (between.printed (Turn.report colors ⟨file, target, before, attempt, between⟩)) turns after) :
      Turns colors translator source ((file, target) :: rest) before
        (⟨file, target, before, attempt, between⟩ :: turns) after

section turns

variable {colors : Bool} {translator : Translator} {source : Locale}
  {pairs : List (Path × Locale)} {turns : List Turn}

/-- One call, however it ends, and then the others. -/
theorem translateAll_cons_run {file : Path} {target : Locale} {attempt : Attempt} {between : World}
    (hran : (translator.translateFile file target (targetPath file source target)).run before =
      (attempt, between)) (tally : Tally) (rest : List (Path × Locale)) :
    (translateAll colors translator source tally ((file, target) :: rest)).run before =
      (translateAll colors translator source
        (Turn.count tally ⟨file, target, before, attempt, between⟩) rest).run
        (between.printed (Turn.report colors ⟨file, target, before, attempt, between⟩)) := by
  rw [translateAll, Program.run_bind, hran]
  obtain ⟨journal, result⟩ := attempt
  cases result with
  | ok report =>
    rw [Turn.report, World.printed_nil]
    rfl
  | error failure => rfl

theorem exists_turns (colors : Bool) (translator : Translator) (source : Locale) (tally : Tally)
    (pairs : List (Path × Locale)) (before : World) :
    ∃ turns, Turns colors translator source pairs before turns
        ((translateAll colors translator source tally pairs).run before).2 ∧
      ((translateAll colors translator source tally pairs).run before).1 =
        turns.foldl Turn.count tally := by
  induction pairs generalizing tally before with
  | nil => exact ⟨[], .done before, rfl⟩
  | cons pair rest ih =>
    obtain ⟨file, target⟩ := pair
    cases hran : (translator.translateFile file target (targetPath file source target)).run before with
    | mk attempt between =>
      rw [translateAll_cons_run hran]
      obtain ⟨turns, hturns, htally⟩ := ih
        (Turn.count tally ⟨file, target, before, attempt, between⟩)
        (between.printed (Turn.report colors ⟨file, target, before, attempt, between⟩))
      exact ⟨_, .next hran hturns, htally⟩

namespace Turns

theorem map_pair (h : Turns colors translator source pairs before turns after) :
    turns.map Turn.pair = pairs := by
  induction h with
  | done world => rfl
  | next ran others ih => rw [List.map_cons, ih, Turn.pair]

/-- All but the file tree, the calls of the service and the output stays. -/
theorem view_after (h : Turns colors translator source pairs before turns after)
    (htree : World.OffTree view) (hcalls : ∀ world calls, view { world with calls } = view world)
    (houtput : ∀ world output, view { world with output } = view world) :
    view after = view before := by
  induction h with
  | done world => rfl
  | @next file target rest attempt before between after turns ran others ih =>
    have hcall := (keeps_translateFile htree hcalls translator file target _).after_run ran
    exact (ih.trans (houtput _ _)).trans hcall

theorem output (h : Turns colors translator source pairs before turns after) :
    after.output = before.output ++ turns.flatMap (Turn.report colors) := by
  induction h with
  | done world => simp
  | @next file target rest attempt before between after turns ran others ih =>
    have hoff : World.OffTree World.output := fun _ _ => rfl
    have hcall := (keeps_translateFile hoff (fun _ _ => rfl) translator file target _).after_run ran
    simp [ih, World.printed, hcall]

/-- A run changes nothing but the file tree, the calls of the service and the output. -/
theorem world_after (h : Turns colors translator source pairs before turns after) :
    after = { before with
      tree := after.tree
      calls := after.calls
      output := before.output ++ turns.flatMap (Turn.report colors) } := by
  have hoff : World.OffTree fun world : World =>
      { world with tree := .empty, calls := [], output := [] } := fun _ _ => rfl
  rw [← h.output]
  exact congrArg (fun world : World =>
    { world with tree := after.tree, calls := after.calls, output := after.output })
    (h.view_after hoff (fun _ _ => rfl) (fun _ _ => rfl))

/-- Each change of a run was made by a call that succeeded, and at its target, if a failing write
leaves the files. -/
theorem changes (h : Turns colors translator source pairs before turns after)
    (hclean : before.tree.FailsCleanly)
    (hchange : after.tree.content? location ≠ before.tree.content? location) :
    ∃ turn ∈ turns, turn.succeeded ∧
      location = (targetPath turn.file source turn.target).place before.working := by
  induction h with
  | done world => exact absurd rfl hchange
  | @next file target rest attempt before between after turns ran others ih =>
    have hworking : between.working = before.working := by
      have hoff : World.OffTree World.working := fun _ _ => rfl
      exact (keeps_translateFile hoff (fun _ _ => rfl) translator file target _).after_run ran
    by_cases hfirst : between.tree.content? location = before.tree.content? location
    · have hstill := hclean.congr ((Program.keeps_refusals _).after_run ran)
      obtain ⟨turn, hturn, hok, hplace⟩ := ih hstill (fun he => hchange (he.trans hfirst))
      rw [World.printed_working, hworking] at hplace
      exact ⟨turn, List.mem_cons_of_mem _ hturn, hok, hplace⟩
    · obtain ⟨hok, hplace⟩ := Translator.changes_of_translateFile ran hclean hfirst
      exact ⟨_, List.mem_cons_self, hok, hplace⟩

end Turns

/-- The failed calls are counted. -/
theorem failed_foldl_count (turns : List Turn) (tally : Tally) :
    (turns.foldl Turn.count tally).failed =
      tally.failed + turns.countP fun turn => !turn.succeeded := by
  induction turns generalizing tally with
  | nil => rfl
  | cons turn rest ih =>
    rw [List.foldl_cons, ih, List.countP_cons, Turn.count]
    cases turn.succeeded with
    | true => simp
    | false =>
      simp
      omega

end turns

namespace Plan

variable {colors agreed : Bool} {plan : Plan}

theorem view_consulted (view : World → γ) (hview : World.OffDialogue view) (agreed : Bool)
    (plan : Plan) (world : World) : view (plan.consulted agreed world).2 = view world := by
  unfold consulted
  split
  · exact hview world _ _
  · rfl

/-- Where there is nothing to translate, only this is said. -/
theorem runOn_carryOut_idle (h : plan.files = [] ∨ plan.targets = []) (world : World) :
    ∃ complaint, (plan.carryOut colors agreed).runOn world =
      (.ok .failure, world.printed (Output.failure colors complaint)) := by
  unfold carryOut
  split
  · exact ⟨_, rfl⟩
  · next hf =>
    have ht : plan.targets.isEmpty = true := by simpa [List.isEmpty_iff.not.mp hf] using h
    rw [if_pos ht]
    exact ⟨_, rfl⟩

/-- Where there is something to translate, it is done unless the user declines. -/
theorem runOn_carryOut (hf : plan.files ≠ []) (ht : plan.targets ≠ []) (world : World) :
    (plan.carryOut colors agreed).runOn world =
      if (plan.consulted agreed world).1 then
        (translateFiles colors plan.settings.options plan.source plan.files plan.targets).runOn
          (plan.consulted agreed world).2
      else (.ok .success, (plan.consulted agreed world).2.printed cancelledLine) := by
  rw [carryOut, if_neg (by simpa using hf), if_neg (by simpa using ht), Procedure.runOn_liftM_bind,
    mayUpdate_run]
  split <;> rfl

/-- Behind the calls it is only shown how they ended. -/
theorem runOn_translateFiles (colors : Bool) (plan : Plan) (world : World) :
    let made := (translateAll colors plan.translator plan.source ⟨.empty, 0⟩ plan.pairs).run world
    (translateFiles colors plan.settings.options plan.source plan.files plan.targets).runOn world =
      (.ok (if made.1.failed = 0 then .success else .failure),
        made.2.printed (plan.closing colors made.1)) := by
  intro made
  rw [translateFiles, Procedure.runOn_liftM_bind]
  change (Procedure.print (Output.progressTable colors made.1.tracker) >>= fun _ =>
    if made.1.failed = 0 then _ else _).runOn made.2 = _
  rw [Procedure.runOn_bind, runOn_print, closing, ← World.printed_printed]
  dsimp only
  by_cases hnone : made.1.failed = 0
  · rw [if_pos hnone, if_pos hnone, if_pos hnone]
    rfl
  · rw [if_neg hnone, if_neg hnone, if_neg hnone]
    rfl

/-- All calls are made, and the run succeeds exactly if each of them does. -/
theorem exists_turns_translateFiles (colors : Bool) (plan : Plan) (world : World) :
    ∃ turns ended, Turns colors plan.translator plan.source plan.pairs world turns ended ∧
      (translateFiles colors plan.settings.options plan.source plan.files plan.targets).runOn world =
        (.ok (if ∀ turn ∈ turns, turn.succeeded then .success else .failure),
          ended.printed (plan.closing colors (turns.foldl Turn.count ⟨.empty, 0⟩))) := by
  obtain ⟨turns, hturns, htally⟩ :=
    exists_turns colors plan.translator plan.source ⟨.empty, 0⟩ plan.pairs world
  have hfailed : (turns.foldl Turn.count ⟨.empty, 0⟩).failed = 0 ↔
      ∀ turn ∈ turns, turn.succeeded := by
    rw [failed_foldl_count, Nat.zero_add, List.countP_eq_zero]
    simp
  refine ⟨turns, _, hturns, ?_⟩
  rw [runOn_translateFiles, htally]
  simp only [hfailed]

end Plan

/-- A run changes only what it is to translate into. Up to its plan it changes the file tree at most; if
it ends there, with a failure, for want of files or targets, or because the user declines, it changes no
more. The user is asked exactly if a target file is there and the update was not agreed to. Else each
pair of a found file and a target is attempted in turn, whatever comes of the others, and the run
succeeds exactly if each attempt does. If a failing write leaves the files as they are, the plan makes
the languages file at most, and each file whose content is another one at the end is the target of an
attempt that succeeded, or the languages file. -/
theorem run_effects (colors : Bool) (arguments : Translate) (before : World) :
    let ran := (run colors arguments).runOn before
    let planned := (plan arguments).runOn before
    planned.2 = { before with tree := planned.2.tree } ∧
    (before.tree.FailsCleanly → ∀ location,
      planned.2.tree.content? location ≠ before.tree.content? location →
      Listed arguments before planned.2 location) ∧
    (∀ failure, planned.1 = .error failure → ran = (.error failure, planned.2)) ∧
    ∀ plan, planned.1 = .ok plan →
      (plan.files = [] ∨ plan.targets = [] → ∃ complaint,
        ran = (.ok .failure, planned.2.printed (Output.failure colors complaint))) ∧
      (plan.files ≠ [] → plan.targets ≠ [] →
        let consulted := plan.consulted arguments.yes planned.2
        (consulted.1 = false → ran = (.ok .success, consulted.2.printed cancelledLine)) ∧
        (consulted.1 = true → ∃ turns ended,
          Turns colors plan.translator plan.source plan.pairs consulted.2 turns ended ∧
          turns.map Turn.pair = plan.pairs ∧
          ((∀ child ∈ planned.2.tree.children planned.2.working plan.folder, '/' ∉ child.1) →
            plan.pairs.Nodup) ∧
          ended = { consulted.2 with
            tree := ended.tree
            calls := ended.calls
            output := consulted.2.output ++ turns.flatMap (Turn.report colors) } ∧
          ran = (.ok (if ∀ turn ∈ turns, turn.succeeded then .success else .failure),
            ended.printed (plan.closing colors (turns.foldl Turn.count ⟨.empty, 0⟩))) ∧
          (before.tree.FailsCleanly → ∀ location,
            ran.2.tree.content? location ≠ before.tree.content? location →
            (∃ turn ∈ turns, turn.succeeded ∧
              location = (targetPath turn.file plan.source turn.target).place before.working) ∨
            Listed arguments before ran.2 location))) := by
  intro ran planned
  have hran : ran = (plan arguments >>= Plan.carryOut colors arguments.yes).runOn before := by
    rw [← run_eq]
  have hframe : planned.2 = { before with tree := planned.2.tree } := world_of_plan arguments before
  have hlisted (hclean : before.tree.FailsCleanly) : ∀ location,
      planned.2.tree.content? location ≠ before.tree.content? location →
        Listed arguments before planned.2 location :=
    fun location => listed_of_plan (Prod.eta _).symm hclean
  refine ⟨hframe, hlisted, fun failure hfailed => hran.trans
    (Procedure.runOn_bind_eq_error.mpr (.inl (Prod.ext hfailed rfl))), fun plan hplan => ?_⟩
  have hplanned : (LocalizationRun.plan arguments).runOn before = (.ok plan, planned.2) :=
    Prod.ext hplan rfl
  rw [Procedure.runOn_bind, hplanned] at hran
  dsimp only at hran
  refine ⟨fun hidle => ?_, fun hf ht => ?_⟩
  · obtain ⟨complaint, hidle⟩ := Plan.runOn_carryOut_idle hidle planned.2
    exact ⟨complaint, hran.trans hidle⟩
  intro consulted
  rw [Plan.runOn_carryOut hf ht] at hran
  refine ⟨fun hno => hran.trans (if_neg (by simpa using hno)), fun hyes => ?_⟩
  obtain ⟨turns, ended, hturns, htranslated⟩ := plan.exists_turns_translateFiles colors consulted.2
  rw [if_pos hyes, htranslated] at hran
  refine ⟨turns, ended, hturns, hturns.map_pair, nodup_pairs hplanned, hturns.world_after, hran,
    fun hclean location hchange => ?_⟩
  have hrefusals : consulted.2.tree.refusals = before.tree.refusals := by
    rw [plan.view_consulted (fun world => world.tree.refusals) (fun _ _ _ => rfl)]
    exact (LocalizationRun.plan arguments).run.keeps_refusals before
  have htree : consulted.2.tree = planned.2.tree :=
    plan.view_consulted World.tree (fun _ _ _ => rfl) arguments.yes planned.2
  have hworking : consulted.2.working = before.working := by
    rw [plan.view_consulted World.working (fun _ _ _ => rfl) arguments.yes planned.2, hframe]
  have hend : ran.2.tree = ended.tree := by
    rw [hran]
    rfl
  rw [hend] at hchange
  -- A location that no call has changed was changed by the plan.
  by_cases hcalled : ended.tree.content? location = consulted.2.tree.content? location
  · rw [htree] at hcalled
    rw [hcalled] at hchange
    exact .inr ((hlisted hclean location hchange).of_content (by rw [hend, hcalled]))
  · obtain ⟨turn, hturn, hok, hplace⟩ := hturns.changes (hclean.congr hrefusals) hcalled
    exact .inl ⟨turn, hturn, hok, hworking ▸ hplace⟩

section sample

/-- A machine with one key file, whose Hindi target is a folder. The user says yes. -/
def halfBlocked : World :=
  let world := folderOf [("home.US_en.properties".toList, "x=a\n".toList)]
  { world with
    tree := (world.tree.put ["home.US_hi.properties".toList, "k".toList] .folder).put
      ["languages.json".toList] (.file (LanguageFile.render []).toBytes)
    input := "y\n".toUTF8.toList }

def sampleArguments (targets : List Text) (keysFolder : Option Text) : Translate where
  sourceLocale := none
  targets
  testMode := false
  messageKeysDir := keysFolder
  yes := false

def intoBoth : Translate :=
  sampleArguments ["hi".toList, "es".toList] (some sampleFolder.text)

end sample

/-- The Hindi target cannot be read, and the Spanish one is written all the same. -/
theorem run_effects_half_blocked :
    let file := keyFile sampleFolder english "home".toList
    let planned := ((plan intoBoth).runOn halfBlocked).2
    let ran := (run false intoBoth).runOn halfBlocked
    ran.1 = .ok .failure ∧ ∃ turns ended,
      Turns false ⟨.builtin, Settings.defaults.options⟩ english
        [(file, english.withLanguage "hi".toList), (file, spanish)]
        (planned.answered updateQuestion) turns ended ∧
      ∃ turn ∈ turns, turn.succeeded = false := by
  intro file planned ran
  let settings := { Settings.defaults with messageKeysDir := "/k".toList }
  let found : Plan :=
    ⟨settings, english, [english.withLanguage "hi".toList, spanish], sampleFolder, [file]⟩
  have hplan : ((plan intoBoth).runOn halfBlocked).1 = .ok found := by decide +kernel
  have hstatus : ((run false intoBoth).runOn halfBlocked).1 = .ok .failure := by decide +kernel
  have hasks : found.asks intoBoth.yes ((plan intoBoth).runOn halfBlocked).2 = true := by
    decide +kernel
  have hyes : (found.consulted intoBoth.yes ((plan intoBoth).runOn halfBlocked).2).1 = true := by
    decide +kernel
  have hconsulted : (found.consulted intoBoth.yes ((plan intoBoth).runOn halfBlocked).2).2 =
      ((plan intoBoth).runOn halfBlocked).2.answered updateQuestion := by
    rw [Plan.consulted, if_pos hasks]
  obtain ⟨-, -, -, hplans⟩ := run_effects false intoBoth halfBlocked
  obtain ⟨-, hbusy⟩ := hplans found hplan
  obtain ⟨-, htranslated⟩ := hbusy (List.cons_ne_nil _ _) (List.cons_ne_nil _ _)
  obtain ⟨turns, ended, hturns, -, -, -, hran, -⟩ := htranslated hyes
  refine ⟨hstatus, turns, ended, hconsulted ▸ hturns, ?_⟩
  by_contra hnone
  have hall : ∀ turn ∈ turns, turn.succeeded := by simpa using hnone
  rw [hran, if_pos hall] at hstatus
  cases hstatus

/-- Where the languages file is missing and there are no key files, the languages file is all that is
made. -/
theorem runOn_of_nothing (colors : Bool) {arguments : Translate} {project : Project}
    {source : Locale} {codes : List Text}
    (hproject : (Project.load arguments.messageKeysDir).runOn before = (.ok project, before))
    (hsource : (override project.settings arguments).locale = .ok source)
    (hmissing : before.tree.kind? before.working (project.path project.settings.languagesFile) = none)
    (hwrite : (LanguageFile.write (project.path project.settings.languagesFile)
      Language.defaults).runOn before = (.ok (), after))
    (hcodes : requestedCodes Language.defaults arguments.targets = .ok codes)
    (hfiles : ((keyFiles project.keysFolder source).run after).1 = []) :
    ∃ complaint, (run colors arguments).runOn before =
      (.ok .failure, after.printed (Output.failure colors complaint)) := by
  let found : Plan := ⟨override project.settings arguments, source, targetLocales source codes,
    project.keysFolder, []⟩
  have hplan : (plan arguments).runOn before = (.ok found, after) := by
    refine Procedure.runOn_bind_eq_ok.mpr ⟨project, before, hproject, ?_⟩
    refine Procedure.runOn_bind_eq_ok.mpr ⟨source, before, by rw [hsource]; rfl, ?_⟩
    refine Procedure.runOn_bind_eq_ok.mpr
      ⟨_, after, LanguageFile.load_of_missing hmissing hwrite, ?_⟩
    refine Procedure.runOn_bind_eq_ok.mpr ⟨codes, after, by rw [hcodes]; rfl, ?_⟩
    rw [Procedure.runOn_liftM_bind, hfiles]
    rfl
  obtain ⟨complaint, hidle⟩ := found.runOn_carryOut_idle (.inl rfl) after
  refine ⟨complaint, ?_⟩
  rw [run_eq, Procedure.runOn_bind, hplan]
  exact hidle

section sample

/-- A machine with a project in its root folder: the settings name the languages file, and there is one
with French. -/
def projectWorld (languagesFile : String) : World :=
  { folderOf [] with
    tree := ⟨.ofList [
      ([Settings.fileName], .file ("\x7b\"languagesFile\":\"" ++ languagesFile ++ "\"\x7d").toUTF8),
      (["languages.json".toList],
        .file (LanguageFile.render [⟨"fr".toList, "French".toList⟩]).toBytes)]⟩ }

def intoSpanish : Translate :=
  sampleArguments ["es".toList] none

end sample

/-- A languages file that is there is overwritten if its path leads through a folder that is missing:
the run ends with nothing to translate, and French is gone. -/
theorem run_overwrites_languages :
    let before := projectWorld "x/../languages.json"
    let location : Location := ["languages.json".toList]
    let ran := (run false intoSpanish).runOn before
    before.tree.content? location =
        some (LanguageFile.render [⟨"fr".toList, "French".toList⟩]).toBytes ∧
      ran.1 = .ok .failure ∧
      ran.2.tree.content? location = some (LanguageFile.render Language.defaults).toBytes := by
  intro before location ran
  let project : Project :=
    ⟨{ Settings.defaults with languagesFile := "x/../languages.json".toList }, ⟨['/']⟩⟩
  let path := project.path project.settings.languagesFile
  have hlooks : Program.Looks (Project.load intoSpanish.messageKeysDir).run := Project.keeps_load _
  have hloaded : ((Project.load intoSpanish.messageKeysDir).runOn before).1 = .ok project := by
    decide +kernel
  have hproject : (Project.load intoSpanish.messageKeysDir).runOn before = (.ok project, before) :=
    Prod.ext hloaded (hlooks.runOn before)
  have hsource : (override project.settings intoSpanish).locale = .ok english := by
    decide +kernel
  have hmissing : before.tree.kind? before.working path = none := by decide +kernel
  have hcodes : requestedCodes Language.defaults intoSpanish.targets = .ok ["es".toList] := by
    decide +kernel
  have hwrote : ((LanguageFile.write path Language.defaults).runOn before).1 = .ok () := by
    decide +kernel
  have hfiles : ((keyFiles project.keysFolder english).run
      ((LanguageFile.write path Language.defaults).runOn before).2).1 = [] := by
    decide +kernel
  have hplace : path.place before.working = location := by decide +kernel
  have hearlier : before.tree.content? location =
      some (LanguageFile.render [⟨"fr".toList, "French".toList⟩]).toBytes := by
    decide +kernel
  refine ⟨hearlier, ?_⟩
  cases hwrite : (LanguageFile.write path Language.defaults).runOn before with
  | mk written made =>
    rw [hwrite] at hwrote hfiles
    obtain rfl : written = .ok () := hwrote
    obtain ⟨complaint, hran⟩ := runOn_of_nothing false hproject hsource hmissing hwrite hcodes hfiles
    have hended : ran = _ := hran
    rw [hended]
    refine ⟨rfl, ?_⟩
    rw [← hplace]
    exact (LanguageFile.text?_of_write hwrite).2

end LocalizationRun

end MessageKeys
