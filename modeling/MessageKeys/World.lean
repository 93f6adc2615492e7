import MessageKeys.Confirmation
import MessageKeys.Program

/-!
# A machine as a value

A world holds all that a program can see and change: the file tree and the working folder, the
input not yet read, what was printed, the translating service and the calls made to it, and the
clock. Running a program on a world gives its result and the world it leaves.
-/
namespace MessageKeys

structure World where
  tree : Tree
  working : Location
  input : List UInt8
  output : Text
  errors : Text
  service : Localization.Service
  /-- The texts and languages the service was asked for, the earliest first. -/
  calls : List (Text × Text)
  /-- The time that the clock starts from. -/
  time : Moment
  [pace : Pace]

namespace World

/-- How a location is written as an absolute path. -/
def pathOf (location : Location) : Path :=
  ⟨if location.isEmpty then ['/'] else location.reverse.flatMap fun name => '/' :: name⟩

/-- What the clock shows when so many calls were made: they take their time, and so do the pauses
between them. -/
def clock (world : World) (calls : Nat) : Moment :=
  ⟨world.time.nanoseconds + world.pace.elapsed calls⟩

def perform {α : Type} : Effect α → World → α × World
  | .workingFolder, world => (pathOf world.working, world)
  | .kind path, world => (world.tree.kind? world.working path, world)
  | .read path, world => (world.tree.read world.working path, world)
  | .write path content, world =>
    match world.tree.write world.working path content with
    | .ok tree => (.ok (), { world with tree })
    | .error fault => (.error fault, { world with tree := world.tree.spoil world.working path })
  | .createFolders path, world =>
    let (result, tree) := world.tree.createFolders world.working path
    (result, { world with tree })
  | .copy source target, world =>
    match world.tree.copy world.working source target with
    | .ok tree => (.ok (), { world with tree })
    | .error fault => (.error fault, world)
  | .children path, world => (world.tree.children world.working path, world)
  | .nextLine, world =>
    let (line, rest) := Confirmation.nextLine world.input
    (line, { world with input := rest })
  | .print text, world => ((), { world with output := world.output ++ text })
  | .printError text, world => ((), { world with errors := world.errors ++ text })
  | .translate text language _, world =>
    (world.service world.calls.length text language,
      { world with calls := world.calls ++ [(text, language)] })
  | .now, world => (world.clock world.calls.length, world)

end World

namespace Program

variable {α β : Type}

def run : Program α → World → α × World
  | pure value, world => (value, world)
  | request effect next, world =>
    let (answer, world) := world.perform effect
    (next answer).run world

@[simp] theorem run_pure (value : α) (world : World) :
    (Pure.pure value : Program α).run world = (value, world) := rfl

@[simp] theorem run_bind (program : Program α) (next : α → Program β) (world : World) :
    (program >>= next).run world = (next (program.run world).1).run (program.run world).2 := by
  induction program generalizing world with
  | pure value => rfl
  | request effect rest ih => exact ih _ _

@[simp] theorem run_perform (effect : Effect α) (world : World) :
    (perform effect).run world = world.perform effect := rfl

end Program

namespace Procedure

/-- Runs a procedure on a world. -/
def runOn (procedure : Procedure α) (world : World) : Except Failure α × World :=
  Program.run (ExceptT.run procedure) world

end Procedure
end MessageKeys
