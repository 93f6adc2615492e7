import MessageKeys.Failure

/-!
# The translating service

A service answers a text and a language with a text or a fault. Some faults pass, so that asking
again may help. What a service answers may hang on how often it was asked before.
-/
namespace MessageKeys.Localization

inductive ServiceFault where
  | network
  | status (code : Nat)
  | malformed (response : Text)
  | unavailable (text language : Text)
  deriving DecidableEq, Repr

namespace ServiceFault

/-- Whether asking again after a pause may help. -/
def isTransient : ServiceFault → Bool
  | network => true
  | status code => code == 429 || 500 ≤ code
  | malformed _ | unavailable _ _ => false

def message : ServiceFault → Text
  | network => "translation request failed".toList
  | status code => "translation service returned HTTP ".toList ++ Text.ofNat code
  | malformed response => "malformed translation response: ".toList ++ response
  | unavailable text language => "no translation available for ".toList ++ Cause.quoted text ++
      " (".toList ++ language ++ [')']

end ServiceFault

abbrev Reply := Except ServiceFault Text

/-- The reply to a text and a language, given the number of calls made before. -/
abbrev Service := Nat → Text → Text → Reply

/-- A pause of at least `least` and at most `most` milliseconds, or of `least` if that is more. -/
structure Delay where
  least : Nat
  most : Nat
  deriving DecidableEq, Repr

namespace Delay

def none : Delay := ⟨0, 0⟩

def exactly (milliseconds : Nat) : Delay := ⟨milliseconds, milliseconds⟩

/-- The pause, for a number drawn at random: any length of the range can come of it. -/
def sample (delay : Delay) (draw : Nat) : Nat :=
  if delay.least < delay.most then delay.least + draw % (delay.most - delay.least + 1)
  else delay.least

end Delay
end MessageKeys.Localization
