import MessageKeys.Markup.Layout
import MessageKeys.OrderedMap

/-!
# What a document says

The spans of a document are its finished markers with the bytes they occupy. The extraction sums
them up: each key once, at the place of its first span and with the text of its last, beside the
number of its spans. A key with several spans is a duplicate.
-/
namespace MessageKeys

/-- Keys and their messages. -/
abbrev Messages := OrderedMap Text Text

namespace Markup

/-- A finished marker: the bytes from its `[msg:` through its `[/msg]`, its key and its message. -/
structure Span where
  start : Nat
  stop : Nat
  key : Text
  text : Text
  deriving DecidableEq, Repr

/-- The spans of parts that stand one after the other from byte `offset` on. -/
def spansFrom (offset : Nat) : List Part → List Span
  | [] => []
  | part :: rest =>
    let start := offset + part.before.byteLength
    let stop := start + part.marker.byteLength
    ⟨start, stop, part.key, part.text⟩ :: spansFrom stop rest

def spans (document : Text) : List Span :=
  spansFrom 0 (Layout.ofText document).parts

structure Extraction where
  messages : Messages
  /-- How many spans each key has. -/
  occurrences : OrderedMap Text Nat
  deriving DecidableEq

namespace Extraction

def occurrencesOf (extraction : Extraction) (key : Text) : Nat :=
  (extraction.occurrences.get? key).getD 0

def ofSpans (spans : List Span) : Extraction where
  messages := .ofList (spans.map fun span => (span.key, span.text))
  occurrences := spans.foldl (fun counts span =>
    counts.insert span.key ((counts.get? span.key).getD 0 + 1)) .empty

/-- The keys with more than one span, in the order of their first spans. -/
def duplicates (extraction : Extraction) : List Text :=
  (extraction.occurrences.entries.filter fun entry => 1 < entry.2).map Prod.fst

end Extraction

def scan (document : Text) : Extraction :=
  .ofSpans (spans document)

end Markup
end MessageKeys
