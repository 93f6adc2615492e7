import MessageKeys.CommandLine.Run
import MessageKeys.Localization.Web

/-!
# On a real machine

Each effect is carried out by the operating system. No network is reached from here, so every
request to the translating service fails at once, and nothing is paused for.
-/
namespace MessageKeys.Machine

def place (path : Path) :=
  System.mkFilePath [String.ofList path.text]

def fault : IO.Error → FileFault
  | .noFileOrDirectory .. => .missing
  | .alreadyExists .. => .alreadyThere
  | .inappropriateType _ 20 _ => .notFolder
  | .inappropriateType _ 21 _ => .isFolder
  | .invalidArgument _ 36 _ => .nameTooLong
  | .permissionDenied _ code reason | .invalidArgument _ code reason
  | .resourceExhausted _ code reason | .inappropriateType _ code reason
  | .noSuchThing _ code reason | .otherError code reason | .resourceBusy code reason
  | .resourceVanished code reason | .unsupportedOperation code reason
  | .hardwareFault code reason | .unsatisfiedConstraints code reason
  | .illegalOperation code reason | .protocolError code reason | .timeExpired code reason
  | .interrupted _ code reason => .refused code.toNat reason.toList
  | .unexpectedEof => .refused 0 "unexpected end of file".toList
  | .userError reason => .refused 0 reason.toList

/-- Carries out an action on a path, if the path can be given to the system at all. -/
def attempt {α : Type} (path : Path) (action : IO α) : IO (Except FileFault α) := do
  if path.text.contains '\x00' then return .error .nulInName
  match ← action.toBaseIO with
  | .ok value => return .ok value
  | .error error => return .error (fault error)

def kind (path : Path) : IO (Option Kind) := do
  match ← attempt path (place path).metadata with
  | .ok metadata => return some (if metadata.type matches .dir then .folder else .file)
  | .error _ => return none

/-- Makes the first folder of the list, and before it those further on that it needs. -/
def createFrom : List Path → IO (Except FileFault Unit)
  | [] => return .ok ()
  | path :: above => do
    if path.text.isEmpty then return .ok ()
    match ← attempt path (IO.FS.createDir (place path)) with
    | .ok _ => return .ok ()
    | .error .missing =>
      match ← createFrom above with
      | .error fault => return .error fault
      | .ok _ => settle path (← attempt path (IO.FS.createDir (place path)))
    | result => settle path result
where
  settle (path : Path) (result : Except FileFault Unit) : IO (Except FileFault Unit) := do
    if result matches .error _ then
      if (← kind path) = some .folder then return .ok ()
    return result

/-- Copies a file. The target is emptied before the source is read. -/
def copy (source target : Path) : IO (Except FileFault Unit) := do
  if (← kind source) = some .folder then return .error .isFolder
  match ← attempt source (IO.FS.Handle.mk (place source) .read) with
  | .error fault => return .error fault
  | .ok input => attempt target do
    let output ← IO.FS.Handle.mk (place target) .write
    output.write (← input.readBinToEnd)
    output.flush

def children (path : Path) : IO (List (Text × Kind)) := do
  match ← attempt path (place path).readDir with
  | .error _ => return []
  | .ok entries =>
    entries.toList.filterMapM fun entry => do
      let name := entry.fileName.toList
      return (← kind (path.join ⟨name⟩)).map (name, ·)

/-- Reads up to the end of the line and no further. -/
partial def readLine (input : IO.FS.Stream) (line : List UInt8) : IO (List UInt8) := do
  match (← input.read 1).toList with
  | [] => return line.reverse
  | byte :: _ =>
    if byte = 10 then return (byte :: line).reverse else readLine input (byte :: line)

def put (output : IO.FS.Stream) (text : Text) : IO Unit := do
  output.write text.toBytes
  output.flush

/-- The time, taken from a file that is made for it. -/
def now : IO Moment := do
  let (_, file) ← IO.FS.createTempFile
  let modified := (← file.metadata).modified
  IO.FS.removeFile file
  return ⟨modified.sec.toNat * 1000000000 + modified.nsec.toNat⟩

def perform {α : Type} : Effect α → IO α
  | .workingFolder => return ⟨(← IO.currentDir).toString.toList⟩
  | .kind path => kind path
  | .read path => attempt path (IO.FS.readBinFile (place path))
  | .write path content => attempt path (IO.FS.writeBinFile (place path) content)
  | .createFolders path => createFrom path.ancestors
  | .copy source target => copy source target
  | .children path => children path
  | .nextLine => do readLine (← IO.getStdin) []
  | .print text => do put (← IO.getStdout) text
  | .printError text => do put (← IO.getStderr) text
  | .translate text language _ =>
    return Localization.Web.service [] Localization.Web.unreachable 0 text language
  | .now => now

def execute {α : Type} : Program α → IO α
  | .pure value => return value
  | .request effect next => do execute (next (← perform effect))

def setting? (name : String) : IO (Option Text) := do
  return (← IO.getEnv name).map String.toList

def surroundings : IO CommandLine.Surroundings := do
  return {
    testMode := ← setting? "PS_I18N_TEST_MODE"
    noColor := ← setting? "NO_COLOR"
    forceColor := ← setting? "CLICOLOR_FORCE"
    color := ← setting? "CLICOLOR"
    terminal := ← (← IO.getStdout).isTty }

end MessageKeys.Machine

open MessageKeys in
def main (words : List String) : IO UInt32 := do
  let status ← Machine.execute
    (CommandLine.program (← Machine.surroundings) (words.map String.toList))
  return UInt32.ofNat status.code
