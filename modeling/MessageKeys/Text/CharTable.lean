import MessageKeys.Text.Basic

/-!
# Character tables

A class of characters given by the stretches of code points that belong to it, the first and the
last of each.
-/
namespace MessageKeys

abbrev CharTable := List (Nat × Nat)

def CharTable.has (table : CharTable) (c : Char) : Bool :=
  table.any fun (first, last) => first ≤ c.toNat && c.toNat ≤ last

theorem CharTable.has_iff (table : CharTable) (c : Char) :
    table.has c = true ↔ ∃ range ∈ table, range.1 ≤ c.toNat ∧ c.toNat ≤ range.2 := by
  simp [has]

end MessageKeys
