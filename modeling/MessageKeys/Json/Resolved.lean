import MessageKeys.Json.Writer
import MessageKeys.OrderedMap

/-!
# JSON values taken whole

Who keeps a value, and does not pass over it, asks what its strings spell. A name that stands
twice in an object keeps its first place and takes its last value, and brackets nest no deeper
than a bound.
-/
namespace MessageKeys.Json

mutual

/-- The value with its strings spelled and its names told apart, where at most `depth` brackets
may be open at once. -/
def resolved? (depth : Nat) : Json → Option Json
  | .string units => (spelled? units).map ofText
  | .array items =>
    match depth with
    | 0 => none
    | depth + 1 => (resolvedItems? depth items).map .array
  | .object members =>
    match depth with
    | 0 => none
    | depth + 1 => (resolvedMembers? depth members).map fun members =>
        .object ((OrderedMap.ofList members).entries.map fun (name, value) =>
          (name.map .char, value))
  | value => some value

def resolvedItems? (depth : Nat) : List Json → Option (List Json)
  | [] => some []
  | item :: rest => do return (← resolved? depth item) :: (← resolvedItems? depth rest)

def resolvedMembers? (depth : Nat) :
    List (List StringUnit × Json) → Option (List (Text × Json))
  | [] => some []
  | (key, value) :: rest => do
    return (← spelled? key, ← resolved? depth value) :: (← resolvedMembers? depth rest)

end

/-- The first item of an array. -/
def first? : Json → Option Json
  | .array (item :: _) => some item
  | _ => none

def items? : Json → Option (List Json)
  | .array items => some items
  | _ => none

end MessageKeys.Json
