import MessageKeys.Files.PropertyFile
import MessageKeys.Localization.Options
import MessageKeys.Localization.Phrasebook
import MessageKeys.Localization.Target
import MessageKeys.Progress

/-!
# Localization of a property file

Each key of the source is translated once, with its last value. The target gets the lines of the
source in their order with the new values in the place of the old ones, and behind them the pairs
that only the earlier target had. A value that neither the service nor the phrasebook translates
keeps its earlier text in the target, or else stays as it is in the source.
-/
namespace MessageKeys.Localization

/-- How the value of a key came about. -/
inductive Outcome where
  | translated (text : Text)
  | fallback (text : Text)
  | untranslated
  deriving DecidableEq, Repr

namespace Outcome

/-- The text to write, where `kept` is what stands for an untranslated value. -/
def text (kept : Text) : Outcome → Text
  | translated text | fallback text => text
  | untranslated => kept

def isTranslated : Outcome → Bool
  | translated _ => true
  | _ => false

def isFallback : Outcome → Bool
  | fallback _ => true
  | _ => false

def isUntranslated : Outcome → Bool
  | untranslated => true
  | _ => false

end Outcome

structure Translator where
  phrasebook : Phrasebook
  options : Options
  deriving DecidableEq

namespace Translator

/-- Calls the service, and calls again up to `retries` times while the fault may pass. -/
def request (options : Options) (text language : Text) (pause : Delay) (repeated : Nat) :
    (retries : Nat) → Program Reply
  | 0 => Program.perform (.translate text language pause)
  | retries + 1 => do
    match ← Program.perform (.translate text language pause) with
    | .ok answer => return .ok answer
    | .error fault =>
      if fault.isTransient then
        request options text language (options.retryPause repeated) (repeated + 1) retries
      else return .error fault

/-- Writes the time behind a translated value, if that is wanted. -/
def stamp (options : Options) (text : Text) : Program Text := do
  if options.timestamps then
    return text ++ " - ".toList ++ (← Program.perform .now).toText
  else return text

/-- Translates a value by the service, or else by the phrasebook. -/
def translateValue (translator : Translator) (value language : Text) : Program Outcome := do
  let options := translator.options
  match ← request options value language options.pause 0 options.allowedRetries with
  | .ok answer => return .translated (← stamp options answer.trim)
  | .error _ =>
    match translator.phrasebook.lookup? value language with
    | some phrase => return .fallback (← stamp options phrase)
    | none => return .untranslated

/-- Translates the entries of one file. Nothing is asked for an empty value, nor in testing mode
once something was asked for. -/
def translateEntries (translator : Translator) (language : Text) (asked : Bool) :
    List (Text × Text) → Program (List (Text × Outcome))
  | [] => pure []
  | (key, value) :: rest => do
    if value.isEmpty || (translator.options.testing && asked) then
      return (key, .untranslated) :: (← translateEntries translator language asked rest)
    else
      let outcome ← translator.translateValue value language
      return (key, outcome) :: (← translateEntries translator language true rest)

end Translator

/-- The value to write for each key. -/
def newValues (source earlier : OrderedMap Text Text) (outcomes : List (Text × Outcome)) :
    OrderedMap Text Text :=
  .ofList (outcomes.map fun (key, outcome) =>
    (key, outcome.text ((earlier.get? key <|> source.get? key).getD [])))

/-- The lines with the new values; `seen` are the keys that have been written, and are not written
again. -/
def replaceValues (values : OrderedMap Text Text) (seen : List Text) :
    List Properties.Line → List Properties.Line
  | [] => []
  | .pair key _ :: rest =>
    if key ∈ seen then replaceValues values seen rest
    else .pair key ((values.get? key).getD []) :: replaceValues values (key :: seen) rest
  | line :: rest => line :: replaceValues values seen rest

/-- The pairs that only the earlier target has. -/
def retainedEntries (source earlier : OrderedMap Text Text) : List (Text × Text) :=
  earlier.entries.filter fun entry => !source.contains entry.1

structure Report where
  target : Path
  /-- Keys of the source. -/
  total : Nat
  translated : Nat
  fallback : Nat
  untranslated : Nat
  /-- Pairs carried over from the earlier target. -/
  retained : Nat
  deriving DecidableEq, Repr

def report (target : Path) (source earlier : OrderedMap Text Text)
    (outcomes : List (Text × Outcome)) : Report where
  target
  total := source.size
  translated := (outcomes.filter fun entry => entry.2.isTranslated).length
  fallback := (outcomes.filter fun entry => entry.2.isFallback).length
  untranslated := (outcomes.filter fun entry => entry.2.isUntranslated).length
  retained := (retainedEntries source earlier).length

/-- The lines of the target file. -/
def targetLines (lines : List Properties.Line) (earlier : OrderedMap Text Text)
    (outcomes : List (Text × Outcome)) : List Properties.Line :=
  let source := Properties.entries lines
  replaceValues (newValues source earlier outcomes) [] lines ++
    (retainedEntries source earlier).map fun (key, value) => .pair key value

/-- The counts made while a file of `total` entries is translated: one before the first entry and
one after each. -/
def journal (label : Text) (total : Nat) : List Recording :=
  (List.range (total + 1)).map fun processed => ⟨label, ⟨processed, total⟩⟩

/-- What comes of translating a file: the counts made on the way, and how it ended. -/
structure Attempt where
  journal : List Recording
  result : Except Failure Report

namespace Translator

/-- Translates the file `source` into the locale `locale` and merges it into the file `target`. -/
def translateFile (translator : Translator) (source : Path) (locale : Locale) (target : Path) :
    Program Attempt := do
  let inputs : Procedure (List Properties.Line × OrderedMap Text Text) := do
    return (← PropertyFile.read source, ← PropertyFile.readEntries target)
  match ← inputs.run with
  | .error failure => return ⟨[], .error failure⟩
  | .ok (lines, earlier) =>
    let entries := Properties.entries lines
    let outcomes ← translator.translateEntries locale.language false entries.entries
    let written ← (PropertyFile.write target (targetLines lines earlier outcomes)).run
    return ⟨journal (progressLabel source locale) entries.size,
      written.map fun _ => report target entries earlier outcomes⟩

end Translator
end MessageKeys.Localization
