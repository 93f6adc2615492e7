import MessageKeys.Markup.Extraction
import MessageKeys.Markup.FreshName

/-!
# Re-indexing of duplicate keys

Every tag of a duplicate key gets a key of its own, `key_0`, `key_1` and so on, where names that
are already taken are passed over. The messages follow: the slot of the old key is replaced in
place by its new keys, which all carry the one text that the slot held.
-/
namespace MessageKeys.Markup

/-- The old keys that were replaced, each with its new keys in document order. -/
abbrev KeyUpdates := OrderedMap Text (List Text)

structure Renumbered where
  document : Text
  newKeys : List Text
  taken : List Text
  deriving DecidableEq, Repr

/-- Numbers the tags of `key` from left to right; `index` is the least number not yet tried. -/
def renumber (key : Text) (taken : List Text) (index : Nat) (document : Text) : Renumbered :=
  match h : document.cut? (tag key) with
  | some (before, after) =>
    have := Text.length_lt_of_cut? (tag_ne_nil key) h
    let index := freshIndex taken key index
    let newKey := numbered key index
    let rest := renumber key (newKey :: taken) (index + 1) after
    ⟨before ++ tag newKey ++ rest.document, newKey :: rest.newKeys, rest.taken⟩
  | none => ⟨document, [], taken⟩
termination_by document.length

structure Reindexed where
  document : Text
  messages : Messages
  updates : KeyUpdates
  deriving DecidableEq

/-- Numbers the tags of one key after the other. -/
def renumberAll (keys taken : List Text) (document : Text) (updates : KeyUpdates) :
    Text × KeyUpdates :=
  match keys with
  | [] => (document, updates)
  | key :: rest =>
    let renumbered := renumber key taken 0 document
    let updates :=
      if renumbered.newKeys.isEmpty then updates else updates.insert key renumbered.newKeys
    renumberAll rest renumbered.taken renumbered.document updates

/-- Replaces each updated key in place by its new keys. -/
def applyUpdates (messages : Messages) (updates : KeyUpdates) : Messages :=
  .ofList (messages.entries.flatMap fun (key, text) =>
    ((updates.get? key).getD [key]).map fun newKey => (newKey, text))

def reindex (document : Text) (messages : Messages) (duplicates : List Text) : Reindexed :=
  let (document, updates) := renumberAll duplicates messages.keys document .empty
  ⟨document, applyUpdates messages updates, updates⟩

end MessageKeys.Markup
