import MessageKeys.Localization.Service

/-!
# Options of a localization run
-/
namespace MessageKeys.Localization

structure Options where
  /-- Ask for the first value of each file only, and never pause. -/
  testing : Bool
  /-- The pause between two calls. -/
  delay : Delay
  /-- How often a call is repeated that met a passing fault. -/
  retries : Nat
  /-- The pause in milliseconds before the first repetition; it doubles with each further one. -/
  retryBase : Nat
  /-- Write the time behind every translated value. -/
  timestamps : Bool
  deriving DecidableEq, Repr

namespace Options

def defaults : Options where
  testing := false
  delay := ⟨1000, 3000⟩
  retries := 2
  retryBase := 500
  timestamps := false

/-- The pause before a call that is no repetition. -/
def pause (options : Options) : Delay :=
  if options.testing then .none else options.delay

/-- The pause before the repetition that follows `repeated` others: each is twice as long as the
one before. -/
def retryPause (options : Options) (repeated : Nat) : Delay :=
  .exactly (options.retryBase <<< repeated)

/-- How many repetitions are allowed. -/
def allowedRetries (options : Options) : Nat :=
  if options.testing then 0 else options.retries

end Options
end MessageKeys.Localization
