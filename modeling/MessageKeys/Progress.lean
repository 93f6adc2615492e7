import MessageKeys.OrderedMap
import MessageKeys.Text.Basic

/-!
# Progress

For each file the entries done so far are counted against all of its entries. A tracker keeps the
latest count of every file, in the order in which the files were first heard of. It is what a
sequence of recordings leaves.
-/
namespace MessageKeys

structure Progress where
  processed : Nat
  total : Nat
  deriving DecidableEq, Repr

namespace Progress

inductive Status where
  | pending
  | inProgress
  | completed
  /-- There is nothing to do. -/
  | skipped
  deriving DecidableEq, Repr

def Status.toText : Status → Text
  | pending => "pending".toList
  | inProgress => "in progress".toList
  | completed => "completed".toList
  | skipped => "skipped".toList

def status (progress : Progress) : Status :=
  if progress.total = 0 then .skipped
  else if progress.processed = 0 then .pending
  else if progress.processed < progress.total then .inProgress
  else .completed

/-- The counts of no file at all. -/
def none : Progress := ⟨0, 0⟩

/-- Two counts put together. -/
def add (a b : Progress) : Progress :=
  ⟨a.processed + b.processed, a.total + b.total⟩

/-- What is done in whole percent, never more than a hundred. -/
def percent (progress : Progress) : Nat :=
  if progress.total = 0 then 0
  else min progress.processed progress.total * 100 / progress.total

end Progress

/-- A count made for a file. -/
structure Recording where
  file : Text
  progress : Progress
  deriving DecidableEq, Repr

structure Tracker where
  rows : OrderedMap Text Progress
  deriving DecidableEq

namespace Tracker

def empty : Tracker := ⟨.empty⟩

def record (tracker : Tracker) (recording : Recording) : Tracker :=
  ⟨tracker.rows.insert recording.file recording.progress⟩

/-- Records one count after the other. -/
def replay (tracker : Tracker) (recordings : List Recording) : Tracker :=
  recordings.foldl record tracker

/-- The counts of all files put together. -/
def overall (tracker : Tracker) : Progress :=
  tracker.rows.values.foldr .add .none

def completedFiles (tracker : Tracker) : Nat :=
  (tracker.rows.values.filter fun progress => progress.status == .completed).length

end Tracker
end MessageKeys
