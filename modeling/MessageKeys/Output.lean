import MessageKeys.KeyFile
import MessageKeys.Progress
import MessageKeys.Text.Style
import MessageKeys.Text.Width

/-!
# What is shown

Lines that report success or failure begin with a mark. The progress of all files is shown as a
table, one row for each file, and a line that sums it up.
-/
namespace MessageKeys.Output

open Text (styled)

/-- A line that begins with a mark, both in one colour. -/
def marked (colors : Bool) (mark : Char) (style : Text.Style) (message : Text) : Text :=
  styled colors style [mark] ++ ' ' :: styled colors style message ++ ['\n']

def success (colors : Bool) (message : Text) : Text :=
  marked colors '✓' .green message

def failure (colors : Bool) (message : Text) : Text :=
  marked colors '✘' .red message

/-- Reports the keys taken from one source. -/
def keysWritten (colors : Bool) (source destination : Text) (stats : KeyFile.Stats) : Text :=
  success colors ("Wrote ".toList ++ Text.ofNat stats.written ++ " key(s) from ".toList ++ source ++
    " to ".toList ++ destination ++ " (".toList ++ Text.ofNat stats.added ++ " new, ".toList ++
    Text.ofNat stats.retained ++ " kept)".toList)

/-- Fills up with blanks to a width on the screen. -/
def padShown (width : Nat) (text : Text) : Text :=
  text ++ List.replicate (width - text.width) ' '

/-- Ten cells, one for each ten percent filled, and the percentage. -/
def bar (colors : Bool) (progress : Progress) : Text :=
  if progress.total = 0 then styled colors .dimmed (Text.padRight 15 ['-'])
  else
    let percent := progress.percent
    let filled := percent * 10 / 100
    let cells := List.replicate filled '█' ++ List.replicate (10 - filled) '░'
    let style := if 66 < percent then .green else if 33 < percent then .yellow else .red
    styled colors style cells ++ ' ' :: Text.padLeft 3 (Text.ofNat percent) ++ ['%']

def statusStyle : Progress.Status → Text.Style
  | .completed => .green
  | .inProgress => .yellow
  | .pending => .red
  | .skipped => .dimmed

/-- The gap between two columns. -/
def gap : Text := [' ', ' ']

def header (fileWidth : Nat) : Text :=
  padShown fileWidth "File".toList ++ gap ++ Text.padLeft 9 "Processed".toList ++ gap ++
    Text.padLeft 5 "Total".toList ++ gap ++ Text.padRight 15 "Progress".toList ++ gap ++
    "Status".toList

def row (colors : Bool) (fileWidth : Nat) (file : Text) (progress : Progress) : Text :=
  styled colors .cyan (padShown fileWidth file) ++ gap ++
    Text.padLeft 9 (Text.ofNat progress.processed) ++ gap ++
    Text.padLeft 5 (Text.ofNat progress.total) ++ gap ++ bar colors progress ++ gap ++
    styled colors (statusStyle progress.status) progress.status.toText ++ ['\n']

def summary (colors : Bool) (tracker : Tracker) : Text :=
  let overall := tracker.overall
  styled colors .bold "Overall progress:".toList ++ ' ' :: Text.ofNat overall.percent ++
    "% (".toList ++ Text.ofNat overall.processed ++ '/' :: Text.ofNat overall.total ++
    " entries), ".toList ++ Text.ofNat tracker.completedFiles ++ " of ".toList ++
    Text.ofNat tracker.rows.size ++ " file(s) completed\n".toList

/-- The progress table; no table is shown where there are no rows. -/
def progressTable (colors : Bool) (tracker : Tracker) : Text :=
  if tracker.rows.isEmpty then []
  else
    let fileWidth := (tracker.rows.keys.map Text.width).foldl max 4
    styled colors .bold (header fileWidth) ++ ['\n'] ++
      (tracker.rows.entries.flatMap fun (file, progress) => row colors fileWidth file progress) ++
      ['\n'] ++ summary colors tracker

end MessageKeys.Output
