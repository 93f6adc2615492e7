import MessageKeys.World

/-!
# Runs that succeed

A run of several steps succeeds exactly if each of them does, on the world that the ones before it
left. What each step leaves alone, successful or not, all of them leave alone.
-/
namespace MessageKeys

variable {α β γ : Type} {world after : World}

/-- Whether the program keeps what `view` shows of the world it runs on. -/
def Program.Keeps (view : World → γ) (program : Program α) : Prop :=
  ∀ world, view (program.run world).2 = view world

namespace Program.Keeps

variable {view : World → γ} {program : Program α}

theorem pure (value : α) : Keeps view (Pure.pure value : Program α) := fun _ => rfl

theorem bind {next : α → Program β} (hp : Keeps view program) (hn : ∀ value, Keeps view (next value)) :
    Keeps view (program >>= next) := fun world => by
  rw [Program.run_bind]
  exact (hn _ _).trans (hp world)

theorem bindRun {procedure : Procedure α} {next : α → Procedure β} (hp : Keeps view procedure.run)
    (hn : ∀ value, Keeps view (next value).run) : Keeps view (procedure >>= next).run := by
  rw [ExceptT.run_bind]
  refine hp.bind fun result => ?_
  cases result with
  | ok value => exact hn value
  | error failure => exact pure _

theorem inStep {step : Text} {effect : Effect (Except FileFault α)}
    (h : Keeps view (Program.perform effect)) : Keeps view (Procedure.inStep step effect).run := by
  refine h.bind fun result => ?_
  cases result <;> exact pure _

theorem lift (hp : Keeps view program) : Keeps view (liftM program : Procedure α).run :=
  hp.bind fun _ => pure _

theorem ofExcept (result : Except Failure α) : Keeps view (Procedure.ofExcept result).run :=
  pure result

theorem within {step : Text} {procedure : Procedure α} (hp : Keeps view procedure.run) :
    Keeps view (Procedure.within step procedure).run := by
  refine hp.bind fun result => ?_
  cases result <;> exact pure _

theorem ite {c : Prop} [Decidable c] {other : Program α} (hp : Keeps view program)
    (ho : Keeps view other) : Keeps view (if c then program else other) := by
  split
  · exact hp
  · exact ho

/-- A program that is run for each element of a list. -/
theorem mapM {δ : Type} {each : δ → Program α} (h : ∀ value, Keeps view (each value))
    (values : List δ) : Keeps view (values.mapM each) := by
  have hloop (done : List α) : Keeps view (List.mapM.loop each values done) := by
    induction values generalizing done with
    | nil => exact pure _
    | cons value rest ih => exact (h value).bind fun _ => ih _
  exact hloop []

theorem filterMapM {δ : Type} {each : δ → Procedure (Option α)}
    (h : ∀ value, Keeps view (each value).run) (values : List δ) :
    Keeps view (values.filterMapM each).run := by
  have hloop (done : List α) : Keeps view (List.filterMapM.loop each values done).run := by
    induction values generalizing done with
    | nil => exact pure _
    | cons value rest ih =>
      refine (h value).bindRun fun result => ?_
      cases result <;> exact ih _
  exact hloop []

theorem after_run {value : α} (h : Keeps view program) (hrun : program.run world = (value, after)) :
    view after = view world := by
  have hview := h world
  rwa [hrun] at hview

theorem runOn {procedure : Procedure α} (h : Keeps view procedure.run) (world : World) :
    view (procedure.runOn world).2 = view world :=
  h world

theorem ran {procedure : Procedure α} {result : Except Failure α}
    (h : Keeps view procedure.run) (hran : procedure.runOn world = (result, after)) :
    view after = view world :=
  h.after_run hran

end Program.Keeps

/-- Whether the program changes nothing at all. -/
abbrev Program.Looks (program : Program α) : Prop :=
  program.Keeps fun world => world

instance : LawfulMonad Program := .mk' Program
  (fun program => by
    induction program with
    | pure value => rfl
    | request effect next ih => exact congrArg (Program.request effect) (funext ih))
  (fun _ _ => rfl)
  (fun program _ _ => by
    induction program with
    | pure value => rfl
    | request effect next ih => exact congrArg (Program.request effect) (funext ih))

namespace Procedure

@[simp] theorem runOn_pure (value : α) (world : World) :
    (pure value : Procedure α).runOn world = (.ok value, world) := rfl

theorem runOn_pure_eq_ok {value result : α} :
    (pure value : Procedure α).runOn world = (.ok result, after) ↔ after = world ∧ result = value := by
  constructor
  · intro h
    obtain ⟨hr, rfl⟩ := Prod.mk.inj h
    exact ⟨rfl, (Except.ok.inj hr).symm⟩
  · rintro ⟨rfl, rfl⟩
    rfl

theorem runOn_bind (procedure : Procedure α) (next : α → Procedure β) (world : World) :
    (procedure >>= next).runOn world =
      match procedure.runOn world with
      | (.ok value, between) => (next value).runOn between
      | (.error failure, between) => (.error failure, between) := by
  unfold runOn
  rw [ExceptT.run_bind, Program.run_bind]
  generalize Program.run (ExceptT.run procedure) world = ran
  obtain ⟨result, between⟩ := ran
  cases result <;> rfl

theorem runOn_bind_eq_ok {procedure : Procedure α} {next : α → Procedure β} {value : β} :
    (procedure >>= next).runOn world = (.ok value, after) ↔
      ∃ first between, procedure.runOn world = (.ok first, between) ∧
        (next first).runOn between = (.ok value, after) := by
  rw [runOn_bind]
  obtain ⟨result, between⟩ := procedure.runOn world
  cases result with
  | error failure => simp
  | ok first =>
    constructor
    · exact fun h => ⟨first, between, rfl, h⟩
    · rintro ⟨_, _, he, h⟩
      obtain ⟨hf, rfl⟩ := Prod.mk.inj he
      obtain rfl := Except.ok.inj hf
      exact h

/-- A run of two steps ends where the first one fails, or else as the second one does. -/
theorem runOn_bind_eq {procedure : Procedure α} {next : α → Procedure β} {ran : Except Failure β × World}
    (h : (procedure >>= next).runOn world = ran) :
    (∃ value between, procedure.runOn world = (.ok value, between) ∧
        (next value).runOn between = ran) ∨
      ∃ failure after, procedure.runOn world = (.error failure, after) ∧
        ran = (.error failure, after) := by
  rw [runOn_bind] at h
  cases hfirst : procedure.runOn world with
  | mk result between =>
    rw [hfirst] at h
    cases result with
    | ok value => exact .inl ⟨value, between, rfl, h⟩
    | error failure => exact .inr ⟨failure, between, rfl, h.symm⟩

/-- A step that only looks passes on the world as it is. -/
theorem runOn_bind_of_looks {procedure : Procedure α} (h : Program.Looks procedure.run)
    (next : α → Procedure β) (world : World) :
    (∃ value, procedure.runOn world = (.ok value, world) ∧
        (procedure >>= next).runOn world = (next value).runOn world) ∨
      ∃ failure, procedure.runOn world = (.error failure, world) ∧
        (procedure >>= next).runOn world = (.error failure, world) := by
  rw [runOn_bind]
  cases hran : procedure.runOn world with
  | mk result after =>
    obtain rfl : after = world := h.ran hran
    cases result with
    | ok value => exact .inl ⟨value, rfl, rfl⟩
    | error failure => exact .inr ⟨failure, rfl, rfl⟩

/-- Steps that only look leave the world as the steps before them left it. -/
theorem snd_runOn_bind_of_looks {next : α → Procedure β} (h : ∀ value, Program.Looks (next value).run)
    (procedure : Procedure α) (world : World) :
    ((procedure >>= next).runOn world).2 = (procedure.runOn world).2 := by
  rw [runOn_bind]
  obtain ⟨result, between⟩ := procedure.runOn world
  cases result with
  | ok value => exact (h value).runOn between
  | error failure => rfl

theorem runOn_bind_eq_error {procedure : Procedure α} {next : α → Procedure β} {failure : Failure} :
    (procedure >>= next).runOn world = (.error failure, after) ↔
      procedure.runOn world = (.error failure, after) ∨
        ∃ first between, procedure.runOn world = (.ok first, between) ∧
          (next first).runOn between = (.error failure, after) := by
  rw [runOn_bind]
  obtain ⟨result, between⟩ := procedure.runOn world
  cases result <;> simp [and_assoc]

@[simp] theorem runOn_liftM (program : Program α) (world : World) :
    (liftM program : Procedure α).runOn world = (.ok (program.run world).1, (program.run world).2) := by
  change Program.run (program >>= fun value => pure (Except.ok value)) world = _
  rw [Program.run_bind]
  rfl

/-- A program without failures only passes on its value and its world. -/
theorem runOn_liftM_bind (program : Program α) (next : α → Procedure β) (world : World) :
    ((liftM program : Procedure α) >>= next).runOn world =
      (next (program.run world).1).runOn (program.run world).2 := by
  rw [runOn_bind, runOn_liftM]

theorem runOn_inStep_eq_ok {step : Text} {effect : Effect (Except FileFault α)} {value : α} :
    (inStep step effect).runOn world = (.ok value, after) ↔
      world.perform effect = (.ok value, after) := by
  change Program.run (Program.perform effect >>= fun answer => _) world = _ ↔ _
  rw [Program.run_bind, Program.run_perform]
  obtain ⟨result, between⟩ := world.perform effect
  cases result <;> simp

theorem runOn_inStep_eq_error {step : Text} {effect : Effect (Except FileFault α)}
    {failure : Failure} :
    (inStep step effect).runOn world = (.error failure, after) ↔
      ∃ fault, world.perform effect = (.error fault, after) ∧ failure = ⟨[step], .file fault⟩ := by
  change Program.run (Program.perform effect >>= fun answer => _) world = _ ↔ _
  rw [Program.run_bind, Program.run_perform]
  obtain ⟨result, between⟩ := world.perform effect
  cases result with
  | ok value => simp
  | error fault =>
    constructor
    · intro h
      obtain ⟨hf, rfl⟩ := Prod.mk.inj h
      exact ⟨fault, rfl, (Except.error.inj hf).symm⟩
    · rintro ⟨_, he, rfl⟩
      obtain ⟨hf, rfl⟩ := Prod.mk.inj he
      rw [← Except.error.inj hf]
      rfl

end Procedure

end MessageKeys
