import MessageKeys.Json.Value
import MessageKeys.OrderedMap

/-!
# Records in JSON

A record is written as an object with named members, or as an array of its members in their order.
Members of an object that the record does not know are passed over; one that it knows may stand
there only once. An array may end early, but may not go on behind the last member.
-/
namespace MessageKeys.Json

def text? : Json → Option Text
  | .string units => spelled? units
  | _ => none

def bool? : Json → Option Bool
  | .bool value => some value
  | _ => none

/-- A natural number that is no greater than `most`. -/
def natural? (most : Nat) : Json → Option Nat
  | .number written => (writtenNatural? written).filter (· ≤ most)
  | _ => none

/-- The members of a record with these names. -/
def record? (names : List Text) : Json → Option (OrderedMap Text Json)
  | .object members =>
    members.foldlM (fun record (key, value) => do
      let name ← spelled? key
      if names.contains name then
        if record.contains name then none else some (record.insert name value)
      else some record) .empty
  | .array items =>
    if items.length ≤ names.length then some (.ofList (names.zip items)) else none
  | _ => none

/-- A member that has to be there. -/
def required? (record : OrderedMap Text Json) (name : String) (decode : Json → Option α) :
    Option α :=
  record.get? name.toList >>= decode

/-- A member that has a value also where it is left out. -/
def member? (record : OrderedMap Text Json) (name : String) (default : α)
    (decode : Json → Option α) : Option α :=
  match record.get? name.toList with
  | some value => decode value
  | none => some default

end MessageKeys.Json
