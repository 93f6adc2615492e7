import MessageKeys.Markup.Consolidation
import MessageKeys.Markup.Reference
import MessageKeys.Markup.Reindexing

/-!
# Preparation of a document

A document is scanned; if it has duplicate keys and re-indexing is wanted, they are re-indexed and
the document is scanned again, so that every new key carries the text of its own span; then equal
messages are consolidated. Nothing here touches a file, so a refusal later on costs nothing.
-/
namespace MessageKeys.Markup

structure Prepared where
  /-- The messages for the key file. -/
  messages : Messages
  /-- The document with its tags re-indexed and consolidated, its spans still in place. -/
  document : Text
  duplicates : List Text
  /-- The new keys, if duplicates were re-indexed. -/
  reindexed : Option KeyUpdates
  consolidated : Messages
  deriving DecidableEq

namespace Prepared

def materialized (prepared : Prepared) : Text :=
  materialize prepared.document

end Prepared

def reindexQuestion : Text :=
  "Duplicate keys found. Do you want to re-index the file?".toList

/-- Prepares a document; `reindexing` is the answer to the question that duplicates raise, and
means nothing for a document without any. -/
def prepare (document : Text) (reindexing : Bool) : Prepared :=
  let extraction := scan document
  let duplicates := extraction.duplicates
  if reindexing && !duplicates.isEmpty then
    let reindexed := reindex document extraction.messages duplicates
    let consolidated := consolidate (scan reindexed.document).messages reindexed.document
    { messages := consolidated.messages, document := consolidated.document, duplicates,
      reindexed := some reindexed.updates, consolidated := consolidated.remapped }
  else
    let consolidated := consolidate extraction.messages document
    { messages := consolidated.messages, document := consolidated.document, duplicates,
      reindexed := none, consolidated := consolidated.remapped }

end MessageKeys.Markup
