import MessageKeys.Markup.Extraction
import MessageKeys.Markup.FreshName

/-!
# Consolidation of equal messages

Keys that own the same text become one key, named after the first of them. The tags in the
document follow in one pass from left to right, in which a tag once written is not read again.
-/
namespace MessageKeys.Markup

/-- The keys that own each text, the texts in the order of their first owners. -/
def owners (messages : Messages) : OrderedMap Text (List Text) :=
  messages.entries.foldl (fun map (key, text) =>
    map.insert text ((map.get? text).getD [] ++ [key])) .empty

/-- The one key for each text with several owners; a name given once is taken from then on. -/
def sharedKeys (taken : List Text) : List (Text × List Text) → List (Text × Text)
  | [] => []
  | (text, first :: second :: others) :: rest =>
    let key := freshMulti taken (first :: second :: others) first
    (text, key) :: sharedKeys (key :: taken) rest
  | _ :: rest => sharedKeys taken rest

/-- The new key of every key whose text has several owners. -/
def consolidationMap (messages : Messages) : Messages :=
  let shared := OrderedMap.ofList (sharedKeys messages.keys (owners messages).entries)
  .ofList (messages.entries.filterMap fun (key, text) =>
    (shared.get? text).map fun newKey => (key, newKey))

/-- The first remapped key whose tag begins the text, and its new key. -/
def leading? (remapped : Messages) (text : Text) : Option (Text × Text) :=
  if openMark.isPrefixOf text then
    remapped.entries.find? fun entry => (tag entry.1).isPrefixOf text
  else none

/-- That an opening mark is looked for first changes nothing, as every tag begins with one. -/
theorem leading?_eq (remapped : Messages) (text : Text) :
    leading? remapped text =
      remapped.entries.find? fun entry => (tag entry.1).isPrefixOf text := by
  unfold leading?
  split
  · rfl
  · next h =>
    refine (List.find?_eq_none.2 fun entry _ ht => h ?_).symm
    obtain ⟨rest, hr⟩ := List.isPrefixOf_iff_prefix.1 ht
    exact List.isPrefixOf_iff_prefix.2 ⟨entry.1 ++ closeBracket ++ rest, by simp [← hr, tag]⟩

/-- Writes every tag `[msg:old]` of a remapped key as `[msg:new]`. -/
def replaceTags (remapped : Messages) (document : Text) : Text :=
  match document with
  | [] => []
  | c :: rest =>
    match leading? remapped (c :: rest) with
    | some (old, new) => tag new ++ replaceTags remapped (rest.drop ((tag old).length - 1))
    | none => c :: replaceTags remapped rest
termination_by document.length

structure Consolidated where
  messages : Messages
  document : Text
  remapped : Messages
  deriving DecidableEq

def consolidate (messages : Messages) (document : Text) : Consolidated :=
  let remapped := consolidationMap messages
  { messages := messages.entries.foldl (fun map (key, text) =>
      map.insertNew ((remapped.get? key).getD key) text) .empty
    document := replaceTags remapped document
    remapped }

end MessageKeys.Markup
