import MessageKeys.Text.Basic

/-!
# Command line arguments

The words of a command line are read from left to right. Switches and options may stand anywhere
in front of a lone `--`; behind it every word is taken as it is. A value that stands in a word of
its own, and source files in a row, are settled only when something else begins, so that a fault
in them shows after one in the word that follows.
-/
namespace MessageKeys

structure CreateKeys where
  sources : List Text
  locale : Text
  messageKeysDir : Option Text
  yes : Bool
  deriving DecidableEq, Repr

structure Translate where
  sourceLocale : Option Text
  targets : List Text
  testMode : Bool
  messageKeysDir : Option Text
  yes : Bool
  deriving DecidableEq, Repr

inductive Command where
  | createKeys (arguments : CreateKeys)
  | translate (arguments : Translate)
  | init
  deriving DecidableEq, Repr

structure Arguments where
  debug : Bool
  command : Option Command
  deriving DecidableEq, Repr

namespace Arguments

/-- Why no command is run. The first two are wishes and no faults. -/
inductive Refusal where
  | helpWanted
  | versionWanted
  | unknownArgument
  | repeatedArgument
  | missingValue
  | unwantedValue
  | missingArgument
  | unknownCommand
  deriving DecidableEq, Repr

inductive Switch where
  | debug
  | help
  | version
  | yes
  | testMode
  deriving DecidableEq, Repr

namespace Switch

def word : Switch → Text
  | debug => "debug".toList
  | help => "help".toList
  | version => "version".toList
  | yes => "yes".toList
  | testMode => "test-mode".toList

def letter? : Switch → Option Char
  | debug => some 'd'
  | help => some 'h'
  | version => some 'V'
  | yes => some 'Y'
  | testMode => none

end Switch

/-- The options that take a value. -/
inductive Valued where
  | messageKeysDir
  | target
  deriving DecidableEq, Repr

def Valued.word : Valued → Text
  | messageKeysDir => "message-keys-dir".toList
  | target => "to".toList

/-- What words without a dash mean. -/
inductive Places where
  | none
  | sourceLocale
  /-- Any number of sources and the locale behind them. -/
  | sourcesAndLocale
  deriving DecidableEq, Repr

structure Grammar where
  switches : List Switch
  valued : List Valued
  places : Places
  deriving DecidableEq, Repr

def createKeysGrammar : Grammar :=
  ⟨[.debug, .help, .yes], [.messageKeysDir], .sourcesAndLocale⟩

def translateGrammar : Grammar :=
  ⟨[.debug, .help, .yes, .testMode], [.messageKeysDir, .target], .sourceLocale⟩

def plainGrammar : Grammar :=
  ⟨[.debug, .help], [], .none⟩

/-- What has begun and is not settled. -/
inductive Pending where
  | nothing
  | value (option : Valued) (value : Option Text)
  | sources
  deriving DecidableEq, Repr

/-- What was read of the words behind a command. -/
structure Reading where
  switches : List Switch
  messageKeysDir : Option Text
  targets : List Text
  sources : List Text
  locale : Option Text
  pending : Pending
  /-- Whether a lone `--` was met. -/
  verbatim : Bool
  deriving DecidableEq, Repr

namespace Reading

def start : Reading :=
  ⟨[], none, [], [], none, .nothing, false⟩

/-- Settles the value of an option. A folder has to be named, and only once. -/
def setValue (reading : Reading) (option : Valued) (value : Text) : Except Refusal Reading :=
  match option with
  | .messageKeysDir =>
    if reading.messageKeysDir.isSome then .error .repeatedArgument
    else if value.isEmpty then .error .missingValue
    else .ok { reading with messageKeysDir := some value }
  | .target => .ok { reading with targets := reading.targets ++ [value] }

/-- Settles what is pending. -/
def settle (reading : Reading) : Except Refusal Reading :=
  let settled := { reading with pending := .nothing }
  match reading.pending with
  | .nothing | .sources => .ok settled
  | .value _ none => .error .missingValue
  | .value option (some value) => settled.setValue option value

/-- Turns a switch on, which can be done once. -/
def turnOn (reading : Reading) (switch : Switch) : Except Refusal Reading := do
  let reading ← reading.settle
  match switch with
  | .help => .error .helpWanted
  | .version => .error .versionWanted
  | _ =>
    if switch ∈ reading.switches then .error .repeatedArgument
    else .ok { reading with switches := switch :: reading.switches }

/-- Reads a word behind its two dashes. -/
def readLong (grammar : Grammar) (reading : Reading) (word : Text) : Except Refusal Reading :=
  let (name, value?) : Text × Option Text := match word.cut? ['='] with
    | some (name, value) => (name, some value)
    | none => (word, none)
  match grammar.valued.find? fun option => option.word == name with
  | some option => do
    let reading ← reading.settle
    match value? with
    | some value => reading.setValue option value
    | none => .ok { reading with pending := .value option none }
  | none =>
    match grammar.switches.find? fun switch => switch.word == name with
    | some switch =>
      if value?.isSome then .error .unwantedValue else reading.turnOn switch
    | none => .error .unknownArgument

/-- Reads the letters behind a single dash, each of them a switch. -/
def readLetters (grammar : Grammar) (reading : Reading) : Text → Except Refusal Reading
  | [] => .ok reading
  | letter :: rest =>
    match grammar.switches.find? fun switch => switch.letter? == some letter with
    | some switch => do readLetters grammar (← reading.turnOn switch) rest
    | none => .error .unknownArgument

/-- Whether a word begins with a dash and is more than dashes that stand alone. -/
def beginsArgument (word : Text) : Bool :=
  word.head? == some '-' && word != ['-'] && word != ['-', '-']

/-- Reads a word that stands in a place of its own. A source is followed by the locale or by
another source; if nothing follows that could be the locale, the word is the locale itself. -/
def readPlaced (grammar : Grammar) (reading : Reading) (word : Text) (following : Option Text) :
    Except Refusal Reading :=
  match grammar.places, reading.locale with
  | .sourceLocale, none => do
    return { ← reading.settle with locale := some word }
  | .sourcesAndLocale, none =>
    if following.all beginsArgument then do
      return { ← reading.settle with locale := some word }
    else do
      let reading ← if reading.pending = .sources then .ok reading else reading.settle
      return { reading with sources := reading.sources ++ [word], pending := .sources }
  | _, _ => .error .unknownArgument

/-- Reads one word, given the word that follows it. -/
def readWord (grammar : Grammar) (reading : Reading) (word : Text) (following : Option Text) :
    Except Refusal Reading :=
  if reading.verbatim then reading.readPlaced grammar word following
  else match word, reading.pending with
    | ['-', '-'], _ => .ok { reading with verbatim := true }
    | '-' :: '-' :: name, _ => reading.readLong grammar name
    | '-' :: letter :: letters, _ => reading.readLetters grammar (letter :: letters)
    | _, .value option none => .ok { reading with pending := .value option (some word) }
    | _, _ => reading.readPlaced grammar word following

def readWords (grammar : Grammar) (reading : Reading) : List Text → Except Refusal Reading
  | [] => reading.settle
  | word :: rest => do readWords grammar (← reading.readWord grammar word rest.head?) rest

end Reading

/-- Whether the text of an environment variable turns a switch on. -/
def turnsOn (value : Text) : Bool :=
  let off := [[], ['n'], ['n', 'o'], ['f'], "false".toList, "off".toList, ['0']]
  !off.contains (value.map Char.toLower)

def commandNames : List Text :=
  ["create-keys".toList, "translate".toList, "init".toList, "help".toList]

/-- Reads the words behind the name of a command; `testMode` is the text of the environment
variable that can stand in for the switch of that name. -/
def readCommand (name : Text) (words : List Text) (testMode : Option Text) :
    Except Refusal (Bool × Command) := do
  if name = "create-keys".toList then
    let reading ← Reading.start.readWords createKeysGrammar words
    match reading.sources, reading.locale with
    | _ :: _, some locale =>
      return (.debug ∈ reading.switches, .createKeys ⟨reading.sources, locale,
        reading.messageKeysDir, .yes ∈ reading.switches⟩)
    | _, _ => throw .missingArgument
  else if name = "translate".toList then
    let reading ← Reading.start.readWords translateGrammar words
    return (.debug ∈ reading.switches, .translate ⟨reading.locale, reading.targets,
      .testMode ∈ reading.switches || testMode.any turnsOn, reading.messageKeysDir,
      .yes ∈ reading.switches⟩)
  else if name = "init".toList then
    let reading ← Reading.start.readWords plainGrammar words
    return (.debug ∈ reading.switches, .init)
  else
    match words with
    | [] => throw .helpWanted
    | [word] => throw (if commandNames.contains word then .helpWanted else .unknownCommand)
    | _ => throw .unknownCommand

def mainGrammar : Grammar :=
  ⟨[.debug, .help, .version], [], .none⟩

/-- Reads the words in front of the command, and then the command. -/
def readMain (reading : Reading) (testMode : Option Text) :
    List Text → Except Refusal Arguments
  | [] => .ok ⟨.debug ∈ reading.switches, none⟩
  | word :: rest =>
    if reading.verbatim then
      .error (if commandNames.contains word then .unknownArgument else .unknownCommand)
    else if commandNames.contains word then do
      let (debug, command) ← readCommand word rest testMode
      return ⟨debug || .debug ∈ reading.switches, some command⟩
    else if word.head? = some '-' && word != ['-'] then do
      readMain (← reading.readWord mainGrammar word rest.head?) testMode rest
    else .error .unknownCommand

/-- Reads the words behind the program's name. -/
def parse (words : List Text) (testMode : Option Text) : Except Refusal Arguments :=
  readMain .start testMode words

end Arguments
end MessageKeys
