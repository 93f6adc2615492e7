import MessageKeys.Project
import MessageKeys.Proofs.Program

/-!
# What the dialogue leaves alone

Printing and asking change nothing but the output and the input that is left.
-/
namespace MessageKeys

variable {γ : Type} {view : World → γ}

namespace World

/-- The world in which a text was printed. -/
def printed (world : World) (text : Text) : World :=
  { world with output := world.output ++ text }

/-- The world in which a question was shown and a line was read for it. -/
def answered (world : World) (prompt : Text) : World :=
  { world with
    input := (Confirmation.nextLine world.input).2
    output := world.output ++ Confirmation.question prompt }

/-- Whether input and output have no say in what `view` shows of a world. -/
def OffDialogue (view : World → γ) : Prop :=
  ∀ world input output, view { world with input, output } = view world

@[simp] theorem printed_nil (world : World) : world.printed [] = world := by
  simp [printed]

@[simp] theorem printed_working (world : World) (text : Text) :
    (world.printed text).working = world.working :=
  rfl

@[simp] theorem printed_printed (world : World) (text more : Text) :
    (world.printed text).printed more = world.printed (text ++ more) := by
  simp [printed]

end World

theorem runOn_print (text : Text) (world : World) :
    (Procedure.print text).runOn world = (.ok (), world.printed text) :=
  rfl

theorem confirm_run_unasked (prompt : Text) (world : World) :
    (confirm true prompt).run world = (true, world) :=
  rfl

theorem confirm_run_asked (prompt : Text) (world : World) :
    (confirm false prompt).run world =
      (Confirmation.accepts (Confirmation.nextLine world.input).1, world.answered prompt) :=
  rfl

theorem keeps_confirm (hview : World.OffDialogue view) (agreed : Bool) (prompt : Text) :
    Program.Keeps view (confirm agreed prompt) := by
  intro world
  cases agreed with
  | true => rfl
  | false => exact hview world _ _

end MessageKeys
