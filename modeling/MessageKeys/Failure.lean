import MessageKeys.Text.Basic

/-!
# Failures

A failure is a cause and the steps it happened in, the outermost first. Its message is made of
their texts in that order. A file that breaks the grammar of its format adds no text of its own:
the step that read it already names the file.
-/
namespace MessageKeys

/-- What a file operation can meet. -/
inductive FileFault where
  | missing
  | alreadyThere
  | notFolder
  | isFolder
  | notText
  /-- A name, or the whole path, is longer than the system takes. -/
  | nameTooLong
  /-- The path holds the character that ends a path for the system. -/
  | nulInName
  /-- Refused for another reason, with the code and the words the system has for it. -/
  | refused (code : Nat) (reason : Text)
  deriving DecidableEq, Repr

def FileFault.message : FileFault → Text
  | .missing => "No such file or directory (os error 2)".toList
  | .alreadyThere => "File exists (os error 17)".toList
  | .notFolder => "Not a directory (os error 20)".toList
  | .isFolder => "Is a directory (os error 21)".toList
  | .notText => "stream did not contain valid UTF-8".toList
  | .nameTooLong => "File name too long (os error 36)".toList
  | .nulInName => "file name contained an unexpected NUL byte".toList
  | .refused code reason => reason ++ " (os error ".toList ++ Text.ofNat code ++ [')']

inductive Format where
  | json
  | xml
  deriving DecidableEq, Repr

inductive Cause where
  | file (fault : FileFault)
  | malformed (format : Format)
  | invalidLocale (text : Text)
  | invertedDelay (least most : Nat)
  | noPluginElement
  | invalidAttribute
  | missingAttribute (name : Text)
  | missingSource (path : Text)
  | invalidPattern (pattern : Text)
  | unmatchedPattern (pattern : Text)
  | unknownLanguage (target : Text)
  deriving DecidableEq, Repr

namespace Cause

def quoted (text : Text) : Text :=
  '"' :: text ++ ['"']

def message? : Cause → Option Text
  | file fault => some fault.message
  | malformed _ => none
  | invalidLocale text => some ("Invalid locale ".toList ++ quoted text ++
      ": expected <region>_<language>, e.g. US_en".toList)
  | invertedDelay least most => some ("Invalid 'requestDelay': minMs (".toList ++
      Text.ofNat least ++ ") is greater than maxMs (".toList ++ Text.ofNat most ++ ")".toList)
  | noPluginElement => some "No <plugin> element found".toList
  | invalidAttribute => some "Invalid attribute".toList
  | missingAttribute name => some ("<plugin> is missing the ".toList ++ quoted name ++
      " attribute".toList)
  | missingSource path => some ("Source file not found: ".toList ++ path)
  | invalidPattern pattern => some ("Invalid glob pattern: ".toList ++ quoted pattern)
  | unmatchedPattern pattern => some ("No files match pattern: ".toList ++ quoted pattern)
  | unknownLanguage target => some ("Unknown target language: ".toList ++ quoted target)

end Cause

structure Failure where
  /-- The steps that were under way, the outermost first. -/
  context : List Text
  cause : Cause
  deriving DecidableEq, Repr

namespace Failure

def ofCause (cause : Cause) : Failure := ⟨[], cause⟩

/-- The failure as seen from a step around it. -/
def within (step : Text) (failure : Failure) : Failure :=
  { failure with context := step :: failure.context }

def messages (failure : Failure) : List Text :=
  failure.context ++ failure.cause.message?.toList

def message (failure : Failure) : Text :=
  Text.join ": ".toList failure.messages

end Failure
end MessageKeys
