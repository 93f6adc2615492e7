import MessageKeys.Text.Basic

/-!
# Colours and emphasis

A styled text stands between the control sequence of its style and the reset sequence. A reset
inside it would end the style early, so the style begins anew behind each of them.
-/
namespace MessageKeys.Text

inductive Style where
  | bold
  | dimmed
  | red
  | green
  | yellow
  | cyan
  deriving DecidableEq, Repr

def Style.code : Style → Text
  | bold => "1".toList
  | dimmed => "2".toList
  | red => "31".toList
  | green => "32".toList
  | yellow => "33".toList
  | cyan => "36".toList

def controlSequence (code : Text) : Text :=
  '\x1b' :: '[' :: code ++ ['m']

def resetSequence : Text :=
  controlSequence ['0']

/-- Begins a style anew behind every reset. -/
def restyle (start : Text) : Text → Text
  | '\x1b' :: '[' :: '0' :: 'm' :: rest => resetSequence ++ start ++ restyle start rest
  | c :: rest => c :: restyle start rest
  | [] => []

/-- The text in a style, or as it is where no colours are wanted. -/
def styled (colors : Bool) (style : Style) (text : Text) : Text :=
  if colors then
    let start := controlSequence style.code
    start ++ restyle start text ++ resetSequence
  else text

end MessageKeys.Text
