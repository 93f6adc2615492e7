import MessageKeys.Failure
import MessageKeys.Files.Tree
import MessageKeys.Localization.Service
import MessageKeys.Time

/-!
# Programs

What a command does to the machine it runs on is a sequence of effects, each of which may depend
on the answers to the ones before it. A program is that sequence as a value: it can be run on a
machine that is itself a value, or carried out for real, and means the same in both cases.
-/
namespace MessageKeys

/-- What a program can ask of its machine, with the type of the answer. -/
inductive Effect : Type → Type 1 where
  | workingFolder : Effect Path
  | kind (path : Path) : Effect (Option Kind)
  | read (path : Path) : Effect (Except FileFault ByteArray)
  | write (path : Path) (content : ByteArray) : Effect (Except FileFault Unit)
  | createFolders (path : Path) : Effect (Except FileFault Unit)
  | copy (source target : Path) : Effect (Except FileFault Unit)
  | children (path : Path) : Effect (List (Text × Kind))
  | nextLine : Effect (List UInt8)
  | print (text : Text) : Effect Unit
  | printError (text : Text) : Effect Unit
  /-- Asks the translating service, after a pause if it was asked before. -/
  | translate (text language : Text) (pause : Localization.Delay) : Effect Localization.Reply
  | now : Effect Moment

inductive Program (α : Type) : Type 1 where
  | pure (value : α)
  | request {β : Type} (effect : Effect β) (next : β → Program α)

namespace Program

variable {α β : Type}

def bind (program : Program α) (next : α → Program β) : Program β :=
  match program with
  | pure value => next value
  | request effect rest => request effect fun answer => (rest answer).bind next

instance : Monad Program where
  pure := pure
  bind := bind

def perform (effect : Effect α) : Program α :=
  request effect pure

end Program

/-- A program that may fail. -/
abbrev Procedure := ExceptT Failure Program

namespace Procedure

variable {α : Type}

def fail (cause : Cause) : Procedure α :=
  ExceptT.mk (pure (.error (.ofCause cause)))

def ofExcept (result : Except Failure α) : Procedure α :=
  ExceptT.mk (pure result)

/-- The outcome of a program, a failure included, as a value. -/
def outcome (procedure : Procedure α) : Program (Except Failure α) :=
  procedure.run

def perform (effect : Effect α) : Procedure α :=
  ExceptT.lift (Program.perform effect)

/-- A file operation as a named step: its faults become failures of that step. -/
def inStep (step : Text) (effect : Effect (Except FileFault α)) : Procedure α :=
  ExceptT.mk do
    match ← Program.perform effect with
    | .ok value => pure (.ok value)
    | .error fault => pure (.error ⟨[step], .file fault⟩)

/-- Names the step in which another procedure runs. -/
def within (step : Text) (procedure : Procedure α) : Procedure α :=
  ExceptT.mk do
    match ← procedure.run with
    | .ok value => pure (.ok value)
    | .error failure => pure (.error (failure.within step))

end Procedure
end MessageKeys
