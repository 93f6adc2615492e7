import Mathlib.Algebra.Order.BigOperators.Group.List
import Mathlib.Algebra.Order.Ring.Nat
import MessageKeys.Output
import MessageKeys.Proofs.Localization.Progress

/-!
# Progress at every moment of a run

A tracker is shown while localizations still count, so what is said about it holds after each single
count and not only at the end of a file. One invariant carries everything: no row has more done than
it has entries. A count keeps it, whatever row it overwrites, because a file counts a key only where it
first stands. Shares are rounded down, so a row or a sum that is not done never shows a hundred
percent.
-/
namespace MessageKeys

namespace Progress

theorem percent_le (progress : Progress) : progress.percent ≤ 100 := by
  unfold percent
  split
  · omega
  · next h =>
    refine Nat.div_le_of_le_mul ?_
    have hmin : min progress.processed progress.total ≤ progress.total := Nat.min_le_right _ _
    exact Nat.mul_le_mul_right 100 hmin

/-- A hundred percent are never rounded up to. -/
theorem percent_eq_hundred_iff {progress : Progress} :
    progress.percent = 100 ↔ 0 < progress.total ∧ progress.total ≤ progress.processed := by
  unfold percent
  split
  · omega
  · next h =>
    have hpos := Nat.pos_of_ne_zero h
    constructor
    · intro he
      refine ⟨hpos, ?_⟩
      have hle : 100 * progress.total ≤ min progress.processed progress.total * 100 :=
        (Nat.le_div_iff_mul_le hpos).mp he.ge
      omega
    · rintro ⟨-, hle⟩
      rw [Nat.min_eq_right hle, Nat.mul_div_cancel_left _ hpos]

theorem status_eq_completed_iff {progress : Progress} :
    progress.status = .completed ↔ 0 < progress.total ∧ progress.total ≤ progress.processed := by
  unfold status
  split
  · simp; omega
  · split
    · simp; omega
    · split
      · simp; omega
      · simp; omega

end Progress

namespace Tracker

open Progress

variable {tracker : Tracker}

theorem overall_processed (tracker : Tracker) :
    tracker.overall.processed = (tracker.rows.values.map Progress.processed).sum := by
  rw [overall]
  induction tracker.rows.values with
  | nil => rfl
  | cons progress rest ih => rw [List.foldr_cons, Progress.add, ih, List.map_cons, List.sum_cons]

/-- No file has more entries done than it has. -/
def Bounded (tracker : Tracker) : Prop :=
  ∀ progress ∈ tracker.rows.values, progress.processed ≤ progress.total

theorem bounded_empty : empty.Bounded := by simp [Bounded, empty, OrderedMap.values, OrderedMap.empty]

theorem Bounded.record (h : tracker.Bounded) {recording : Recording}
    (hr : recording.progress.processed ≤ recording.progress.total) :
    (tracker.record recording).Bounded := by
  intro progress hp
  obtain ⟨⟨file, _⟩, hm, rfl⟩ := List.mem_map.mp hp
  have hg := OrderedMap.get?_eq_some_iff.mpr hm
  rw [Tracker.record, OrderedMap.get?_insert] at hg
  split at hg
  · exact Option.some.inj hg ▸ hr
  · exact h _ (List.mem_map.mpr ⟨_, OrderedMap.get?_eq_some_iff.mp hg, rfl⟩)

theorem Bounded.replay (h : tracker.Bounded) {recordings : List Recording}
    (hr : ∀ recording ∈ recordings, recording.progress.processed ≤ recording.progress.total) :
    (tracker.replay recordings).Bounded := by
  induction recordings generalizing tracker with
  | nil => exact h
  | cons recording rest ih =>
    obtain ⟨hfirst, hrest⟩ := List.forall_mem_cons.mp hr
    exact ih (h.record hfirst) hrest

theorem sum_le_sum_iff {counts : List Progress}
    (h : ∀ progress ∈ counts, progress.processed ≤ progress.total) :
    (counts.map Progress.total).sum ≤ (counts.map Progress.processed).sum ↔
      ∀ progress ∈ counts, progress.total ≤ progress.processed := by
  induction counts with
  | nil => simp
  | cons progress rest ih =>
    obtain ⟨hp, hrest⟩ := List.forall_mem_cons.mp h
    have hle : (rest.map Progress.processed).sum ≤ (rest.map Progress.total).sum :=
      List.sum_le_sum hrest
    rw [List.map_cons, List.map_cons, List.sum_cons, List.sum_cons, List.forall_mem_cons, ← ih hrest]
    omega

/-- All files together are done exactly if one has entries and all that have any are done. -/
theorem Bounded.percent_overall_iff (h : tracker.Bounded) :
    tracker.overall.percent = 100 ↔
      (∃ progress ∈ tracker.rows.values, 0 < progress.total) ∧
        ∀ progress ∈ tracker.rows.values, 0 < progress.total → progress.status = .completed := by
  rw [percent_eq_hundred_iff, overall_total, overall_processed, sum_le_sum_iff h,
    List.sum_pos_iff_exists_pos_nat]
  refine and_congr ?_ (forall₂_congr fun progress _ => ?_)
  · simp
  · rw [status_eq_completed_iff]
    omega

end Tracker

/-- The bar of a file that has entries has ten cells. -/
theorem Output.bar_eq (colors : Bool) {progress : Progress} (h : 0 < progress.total) :
    ∃ style empty, progress.percent * 10 / 100 + empty = 10 ∧
      Output.bar colors progress =
        Text.styled colors style
          (List.replicate (progress.percent * 10 / 100) '█' ++ List.replicate empty '░') ++
            ' ' :: Text.padLeft 3 (Text.ofNat progress.percent) ++ ['%'] := by
  have hle := progress.percent_le
  refine ⟨if 66 < progress.percent then .green else if 33 < progress.percent then .yellow else .red,
    10 - progress.percent * 10 / 100, by omega, ?_⟩
  rw [Output.bar, if_neg (by omega)]

namespace Localization

open OrderedMap (firsts)
open Properties (Line entries parse)

/-- The counts made on the way through the lines of a file: a pair line counts, unless its key stood on
an earlier line. -/
def counts (label : Text) (total : Nat) (seen : List Text) (processed : Nat) :
    List Line → List Recording
  | [] => []
  | .pair key _ :: rest =>
    if seen.contains key then counts label total seen processed rest
    else ⟨label, ⟨processed + 1, total⟩⟩ :: counts label total (key :: seen) (processed + 1) rest
  | _ :: rest => counts label total seen processed rest

theorem counts_eq (label : Text) (total : Nat) (seen : List Text) (processed : Nat)
    (lines : List Line) :
    counts label total seen processed lines =
      (List.range' (processed + 1) ((firsts (pairKeys lines)).filter (· ∉ seen)).length).map
        fun done => ⟨label, ⟨done, total⟩⟩ := by
  induction lines generalizing seen processed with
  | nil => rfl
  | cons line rest ih =>
    cases line with
    | pair key value =>
      rw [counts, pairKeys_pair, firsts, List.filter_cons, List.filter_filter]
      by_cases hs : key ∈ seen
      · have hsame : ((firsts (pairKeys rest)).filter fun other =>
            decide (other ∉ seen) && decide (other ≠ key)) =
              (firsts (pairKeys rest)).filter (· ∉ seen) := by
          refine List.filter_congr fun other _ => ?_
          by_cases he : other = key <;> simp [he, hs]
        rw [if_pos (by simpa using hs), ih, if_neg (by simpa using hs), hsame]
      · have hsame : ((firsts (pairKeys rest)).filter fun other =>
            decide (other ∉ seen) && decide (other ≠ key)) =
              (firsts (pairKeys rest)).filter (· ∉ key :: seen) := by
          refine List.filter_congr fun other _ => ?_
          simp [Bool.and_comm]
        rw [if_neg (by simpa using hs), ih, if_pos (by simpa using hs), List.length_cons, List.range'_succ,
          List.map_cons, hsame]
    | blank raw => exact ih seen processed
    | comment raw => exact ih seen processed
    | other raw => exact ih seen processed

/-- The counts of a file are those made on the way through its lines. -/
theorem journal_eq_counts (label : Text) (lines : List Line) :
    journal label (entries lines).size =
      ⟨label, ⟨0, (entries lines).size⟩⟩ :: counts label (entries lines).size [] 0 lines := by
  have hsize : (firsts (pairKeys lines)).length = (entries lines).size := by
    rw [← keys_entries, OrderedMap.keys, List.length_map]
    rfl
  rw [journal, counts_eq, List.filter_eq_self.mpr (by simp), hsize, List.range_eq_range',
    List.range'_succ, List.map_cons]

theorem processed_le_of_mem_journal {label : Text} {total : Nat} {recording : Recording}
    (h : recording ∈ journal label total) :
    recording.progress.processed ≤ recording.progress.total := by
  obtain ⟨processed, hp, rfl⟩ := List.mem_map.mp h
  exact Nat.le_of_lt_succ (List.mem_range.mp hp)

/-- A localization makes no counts if its files cannot be read, and else those of the lines of its
source, whether the target can be written or not. -/
theorem Call.journal_attempt (call : Call) (before : World) :
    (call.attempt before).journal = [] ∨ ∃ content, before.text? call.source = some content ∧
      (call.attempt before).journal = journal call.label (entries (parse content)).size := by
  rcases translateFile_ends (Prod.eta ((call.translator.translateFile call.source call.locale
    call.target).run before)).symm with ⟨failure, hattempt, -⟩ |
      ⟨content, earlier, outcomes, requests, written, hcontent, -, -, -, hattempt⟩
  · exact .inl (congrArg Attempt.journal hattempt)
  · exact .inr ⟨content, hcontent, congrArg Attempt.journal hattempt⟩

/-- The counts that localizations make one after the other, each on the machine as it finds it. -/
def recordings (calls : List (Call × World)) : List Recording :=
  calls.flatMap fun call => (call.1.attempt call.2).journal

/-- What a count can show. -/
structure Consistent (progress : Progress) : Prop where
  processed_le : progress.processed ≤ progress.total
  percent_le : progress.percent ≤ 100
  percent_eq : progress.percent = 100 ↔ progress.status = .completed
  /-- The bar has ten cells. -/
  bar : ∀ colors, 0 < progress.total → ∃ style empty, progress.percent * 10 / 100 + empty = 10 ∧
    Output.bar colors progress =
      Text.styled colors style
        (List.replicate (progress.percent * 10 / 100) '█' ++ List.replicate empty '░') ++
          ' ' :: Text.padLeft 3 (Text.ofNat progress.percent) ++ ['%']

theorem Consistent.of_le {progress : Progress} (h : progress.processed ≤ progress.total) :
    Consistent progress where
  processed_le := h
  percent_le := progress.percent_le
  percent_eq := by rw [Progress.percent_eq_hundred_iff, Progress.status_eq_completed_iff]
  bar colors hpos := Output.bar_eq colors hpos

/-- A localization counts nothing if it cannot read its files, and else before the first line of its
source and at each pair line whose key is new. Whatever localizations share a tracker, and whether they
succeed or not, after each of their counts every row is consistent, and all is done exactly if there is
something to do and every file that has something to do is completed. -/
theorem progress_consistent (calls : List (Call × World)) :
    (∀ call ∈ calls, (call.1.attempt call.2).journal = [] ∨
      ∃ content, call.2.text? call.1.source = some content ∧
        let total := (entries (parse content)).size
        (call.1.attempt call.2).journal =
          ⟨call.1.label, ⟨0, total⟩⟩ :: counts call.1.label total [] 0 (parse content)) ∧
    ∀ moment : Nat,
      let tracker := Tracker.empty.replay ((recordings calls).take moment)
      (∀ progress ∈ tracker.rows.values, Consistent progress) ∧
      (tracker.overall.percent = 100 ↔ (∃ progress ∈ tracker.rows.values, 0 < progress.total) ∧
        ∀ progress ∈ tracker.rows.values, 0 < progress.total → progress.status = .completed) := by
  constructor
  · rintro ⟨call, before⟩ -
    refine (call.journal_attempt before).imp_right ?_
    rintro ⟨content, hcontent, hjournal⟩
    exact ⟨content, hcontent, hjournal.trans (journal_eq_counts call.label (parse content))⟩
  · intro moment tracker
    have hbounded : tracker.Bounded := by
      refine Tracker.bounded_empty.replay fun recording hr => ?_
      obtain ⟨⟨call, before⟩, -, hr⟩ := List.mem_flatMap.mp (List.mem_of_mem_take hr)
      rcases call.journal_attempt before with hnone | ⟨content, -, hjournal⟩
      · rw [hnone] at hr
        cases hr
      · rw [hjournal] at hr
        exact processed_le_of_mem_journal hr
    exact ⟨fun progress hp => .of_le (hbounded progress hp), hbounded.percent_overall_iff⟩

end Localization

end MessageKeys
