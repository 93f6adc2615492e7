import MessageKeys.Text.Blank
import MessageKeys.Text.Bytes

/-!
# Questions and their answers

A question is answered by one line of input. The answer is yes for a line that reads `y` or
`yes`, in either case and with white space around it, and no for every other line, one that is
not text among them, and at the end of the input.
-/
namespace MessageKeys.Confirmation

/-- The first line of the input, with its line feed if it has one, and what follows it. -/
def nextLine : List UInt8 → List UInt8 × List UInt8
  | [] => ([], [])
  | byte :: rest =>
    if byte = 10 then ([byte], rest)
    else
      let (line, more) := nextLine rest
      (byte :: line, more)

def isYes (answer : Text) : Bool :=
  let word := answer.trim.map Char.toLower
  word == ['y'] || word == ['y', 'e', 's']

/-- The answer that a line of input gives. -/
def accepts (line : List UInt8) : Bool :=
  match Text.ofBytes? line.toByteArray with
  | some answer => isYes answer
  | none => false

/-- How a question is put to the user. -/
def question (prompt : Text) : Text :=
  prompt ++ " (yes/no): ".toList

end MessageKeys.Confirmation
