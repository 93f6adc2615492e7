import Mathlib.Data.List.Enum
import MessageKeys.Localization.File
import MessageKeys.Proofs.Properties

/-!
# The lines of a target file

The translator goes through the lines of the source and remembers which keys it has written. What it
writes can be told from the lines alone: each of them stays where it is, unless it is a pair whose
key stands on an earlier line.
-/
namespace MessageKeys.Localization

open OrderedMap (firsts last?)
open Properties (Line entries)

variable {lines : List Line} {source earlier : OrderedMap Text Text} {key : Text}

/-- The keys of the pairs among the lines, in their order. -/
def pairKeys (lines : List Line) : List Text :=
  (lines.filterMap Line.pair?).map Prod.fst

theorem filterMap_pair (key value : Text) (lines : List Line) :
    (Line.pair key value :: lines).filterMap Line.pair? =
      (key, value) :: lines.filterMap Line.pair? := rfl

theorem pairKeys_cons (line : Line) (lines : List Line) :
    pairKeys (line :: lines) = pairKeys [line] ++ pairKeys lines := by
  rw [pairKeys, pairKeys, pairKeys, ← List.map_append, ← List.filterMap_append]
  rfl

theorem pairKeys_pair (key value : Text) (lines : List Line) :
    pairKeys (.pair key value :: lines) = key :: pairKeys lines := rfl

theorem pairKeys_of_none {line : Line} (h : line.pair? = none) (lines : List Line) :
    pairKeys (line :: lines) = pairKeys lines := by
  rw [pairKeys, List.filterMap_cons_none h]
  rfl

theorem keys_entries (lines : List Line) : (entries lines).keys = firsts (pairKeys lines) :=
  OrderedMap.keys_ofList _

theorem contains_entries_iff : (entries lines).contains key = true ↔ key ∈ pairKeys lines := by
  rw [OrderedMap.contains_iff, keys_entries, OrderedMap.mem_firsts]

/-- What becomes of a line behind others with these keys: a pair is left out if its key is one of
them and else gets a new value, and any other line stays as it is. -/
def lineAfter (values : Text → Text) (written : List Text) : Line → Option Line
  | .pair key _ => if written.contains key then none else some (.pair key (values key))
  | line => some line

/-- The lines with a new value on the first pair line of each key and without its later pair
lines. -/
def withValues (values : Text → Text) (lines : List Line) : List Line :=
  lines.zipIdx.filterMap fun (line, index) =>
    lineAfter values (pairKeys (lines.take index)) line

theorem lineAfter_of_mem {values : Text → Text} {written : List Text} {value : Text}
    (h : key ∈ written) : lineAfter values written (.pair key value) = none := by
  rw [lineAfter, if_pos (List.contains_iff_mem.mpr h)]

theorem lineAfter_of_not_mem {values : Text → Text} {written : List Text} {value : Text}
    (h : key ∉ written) :
    lineAfter values written (.pair key value) = some (.pair key (values key)) := by
  rw [lineAfter, if_neg (List.contains_iff_mem.not.mpr h)]

theorem lineAfter_congr {values : Text → Text} {a b : List Text} (h : ∀ key, key ∈ a ↔ key ∈ b)
    (line : Line) : lineAfter values a line = lineAfter values b line := by
  cases line <;> simp only [lineAfter, List.contains_iff_mem, h]

theorem replaceValues_eq_filterMap (values : OrderedMap Text Text) (seen : List Text)
    (lines : List Line) :
    replaceValues values seen lines = lines.zipIdx.filterMap fun line =>
      lineAfter (fun key => (values.get? key).getD []) (seen ++ pairKeys (lines.take line.2))
        line.1 := by
  induction lines generalizing seen with
  | nil => rfl
  | cons line lines ih =>
    have hrest (written : List Text)
        (h : ∀ key, key ∈ written ↔ key ∈ seen ∨ key ∈ pairKeys [line]) :
        replaceValues values written lines = ((lines.zipIdx 1).filterMap fun entry =>
          lineAfter (fun key => (values.get? key).getD [])
            (seen ++ pairKeys ((line :: lines).take entry.2)) entry.1) := by
      rw [ih, List.zipIdx_succ, List.filterMap_map]
      refine List.filterMap_congr fun entry _ => lineAfter_congr (fun key => ?_) _
      rw [List.take_succ_cons, pairKeys_cons]
      simp only [List.mem_append, h, or_assoc]
    rw [List.zipIdx_cons, List.filterMap_cons]
    cases line with
    | pair key value =>
      have hempty : seen ++ pairKeys (List.take 0 (Line.pair key value :: lines)) = seen :=
        List.append_nil seen
      have hkey : pairKeys [Line.pair key value] = [key] := pairKeys_pair key value []
      dsimp only
      rw [hempty, replaceValues]
      by_cases hs : key ∈ seen
      · rw [if_pos hs, lineAfter_of_mem hs]
        exact hrest seen fun other => by
          rw [hkey, List.mem_singleton]
          exact ⟨.inl, fun ho => ho.elim id fun he => he ▸ hs⟩
      · rw [if_neg hs, lineAfter_of_not_mem hs]
        exact congrArg _ (hrest (key :: seen) fun other => by simp [hkey, or_comm])
    | blank raw => exact congrArg _ (hrest seen fun other => by simp [pairKeys, Line.pair?])
    | comment raw => exact congrArg _ (hrest seen fun other => by simp [pairKeys, Line.pair?])
    | other raw => exact congrArg _ (hrest seen fun other => by simp [pairKeys, Line.pair?])

theorem replaceValues_eq (values : OrderedMap Text Text) (lines : List Line) :
    replaceValues values [] lines = withValues (fun key => (values.get? key).getD []) lines := by
  rw [replaceValues_eq_filterMap]
  rfl

/-- Only the keys of pair lines need values. -/
theorem withValues_congr {f g : Text → Text} (h : ∀ key ∈ pairKeys lines, f key = g key) :
    withValues f lines = withValues g lines := by
  refine List.filterMap_congr fun entry he => ?_
  obtain ⟨line, index⟩ := entry
  have hm : line ∈ lines := List.fst_mem_of_mem_zipIdx he
  cases line with
  | pair key value =>
    have hk : key ∈ pairKeys lines :=
      List.mem_map.mpr ⟨(key, value), List.mem_filterMap.mpr ⟨_, hm, rfl⟩, rfl⟩
    simp only [lineAfter, h key hk]
  | blank raw => rfl
  | comment raw => rfl
  | other raw => rfl

/-- The value that a key of the source gets. -/
def newValue (source earlier : OrderedMap Text Text) (outcomes : OrderedMap Text Outcome)
    (key : Text) : Text :=
  match outcomes.get? key, earlier.get? key with
  | some (.translated text), _ | some (.fallback text), _ => text
  | _, some kept => kept
  | _, none => (source.get? key).getD []

/-- The earlier pairs whose keys the source lacks. -/
def retained (lines : List Line) (earlier : OrderedMap Text Text) : List (Text × Text) :=
  earlier.entries.filter fun entry => !(pairKeys lines).contains entry.1

theorem retainedEntries_eq (lines : List Line) (earlier : OrderedMap Text Text) :
    retainedEntries (entries lines) earlier = retained lines earlier := by
  refine List.filter_congr fun entry _ => ?_
  rw [Bool.eq_iff_iff, Bool.not_eq_true', ← Bool.not_eq_true, contains_entries_iff]
  simp

theorem get?_newValues {outcomes : OrderedMap Text Outcome} (hk : key ∈ outcomes.keys) :
    ((newValues source earlier outcomes.entries).get? key).getD [] =
      newValue source earlier outcomes key := by
  obtain ⟨outcome, ho⟩ := OrderedMap.get?_of_mem_keys hk
  have hlast : (newValues source earlier outcomes.entries).get? key =
      some (outcome.text ((earlier.get? key <|> source.get? key).getD [])) := by
    rw [newValues, OrderedMap.get?_ofList]
    refine OrderedMap.last?_eq_some ?_ fun other hm => ?_
    · exact List.mem_map.mpr ⟨(key, outcome), OrderedMap.get?_eq_some_iff.mp ho, rfl⟩
    · obtain ⟨⟨known, found⟩, hf, he⟩ := List.mem_map.mp hm
      obtain ⟨rfl, rfl⟩ := Prod.mk.inj he
      rw [Option.some.inj ((OrderedMap.get?_eq_some_iff.mpr hf).symm.trans ho)]
  rw [hlast, newValue, ho]
  cases outcome with
  | translated text => rfl
  | fallback text => rfl
  | untranslated => cases earlier.get? key <;> rfl

end MessageKeys.Localization
