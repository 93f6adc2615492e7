import Mathlib.Logic.Function.Iterate
import MessageKeys.Proofs.Properties

/-!
# Property files that are read and written again

Reading keeps of a pair line only its key and its value. The line that is written for them is read as
the same pair, and every other line is written as it stands. So a file that was read once is read the
same way ever after, and what writing changes is the look of some pair lines and a missing line feed
at the end.
-/
namespace MessageKeys.Properties

variable {raw key value content : Text}

/-- The texts that the lines are read from. -/
def rawLines (content : Text) : List Text :=
  let lines := content.pieces '\n'
  if content.getLast? = some '\n' then lines.dropLast else lines

theorem parse_eq (content : Text) : parse content = (rawLines content).map Line.parse := rfl

theorem line_of_mem_rawLines (h : raw ∈ rawLines content) : '\n' ∉ raw := by
  unfold rawLines at h
  split at h
  · exact Text.separator_not_mem (List.mem_of_mem_dropLast h)
  · exact Text.separator_not_mem h

/-- Lines, each closed by a line feed. -/
def closed (lines : List Text) : Text :=
  lines.flatMap fun line => line ++ ['\n']

theorem closed_cons (line : Text) (lines : List Text) :
    closed (line :: lines) = line ++ '\n' :: closed lines := by
  simp [closed]

theorem closed_concat (lines : List Text) (line : Text) :
    closed (lines ++ [line]) = closed lines ++ line ++ ['\n'] := by
  simp [closed]

theorem pieces_closed {lines : List Text} (h : ∀ line ∈ lines, '\n' ∉ line) :
    (closed lines).pieces '\n' = lines ++ [[]] := by
  induction lines with
  | nil => rfl
  | cons line lines ih =>
    obtain ⟨hline, hlines⟩ := List.forall_mem_cons.mp h
    rw [closed_cons, Text.pieces_append, Text.pieces_of_not_mem hline, ih hlines,
      List.singleton_append, List.cons_append]

theorem getLast?_closed {lines : List Text} (hn : lines ≠ []) :
    (closed lines).getLast? = some '\n' := by
  obtain ⟨front, last, rfl⟩ := (List.eq_nil_or_concat lines).resolve_left hn
  rw [List.concat_eq_append, closed_concat, List.getLast?_concat]

theorem rawLines_closed {lines : List Text} (hn : lines ≠ []) (h : ∀ line ∈ lines, '\n' ∉ line) :
    rawLines (closed lines) = lines := by
  rw [rawLines, getLast?_closed hn, if_pos rfl, pieces_closed h, List.dropLast_concat]

theorem rawLines_ne_nil (content : Text) : rawLines content ≠ [] := by
  unfold rawLines
  split
  · next h =>
    obtain ⟨front, rfl⟩ := List.getLast?_eq_some_iff.mp h
    rw [Text.pieces_append]
    simp [Text.pieces, Text.pieces_ne_nil]
  · exact Text.pieces_ne_nil '\n' content

theorem closed_eq_join {lines : List Text} (hn : lines ≠ []) :
    closed lines = Text.join ['\n'] lines ++ ['\n'] := by
  induction lines with
  | nil => exact absurd rfl hn
  | cons line lines ih =>
    cases lines with
    | nil => simp [closed, Text.join_singleton]
    | cons next more =>
      rw [closed_cons, ih (List.cons_ne_nil next more),
        Text.join_cons _ _ (List.cons_ne_nil next more), List.append_assoc, List.cons_append]

/-- A content is made of its lines, up to a line feed that the last one may lack. -/
theorem closed_rawLines (h : content.getLast? = some '\n') : closed (rawLines content) = content := by
  obtain ⟨front, rfl⟩ := List.getLast?_eq_some_iff.mp h
  have hlines : rawLines (front ++ ['\n']) = Text.pieces '\n' front := by
    rw [rawLines, h, if_pos rfl, Text.pieces_append]
    exact List.dropLast_concat
  rw [hlines, closed_eq_join (Text.pieces_ne_nil '\n' front), Text.join_pieces]

theorem render_eq (lines : List Line) : render lines = closed (lines.map Line.toText) := by
  rw [render, closed, List.flatMap_map]

namespace Line

theorem pairOn?_eq_some_iff : pairOn? raw = some (key, value) ↔ parse raw = pair key value := by
  rw [pairOn?]
  cases parse raw <;> simp [pair?]

/-- Only of pair lines something is lost. -/
theorem toText_parse_or (raw : Text) : (∃ key value, parse raw = pair key value) ∨
    (∀ key value, parse raw ≠ pair key value) ∧ (parse raw).toText = raw := by
  unfold parse
  split
  · exact .inr ⟨nofun, rfl⟩
  · exact .inr ⟨nofun, rfl⟩
  · split
    · next key value _ => exact .inl ⟨key, value, rfl⟩
    · exact .inr ⟨nofun, rfl⟩

/-- A line is written as it stands exactly if it is no pair, or one without white space around its
key and its value. -/
theorem toText_parse_eq_iff :
    (parse raw).toText = raw ↔
      ∀ key value, parse raw = pair key value → raw = key ++ '=' :: value := by
  rcases toText_parse_or raw with ⟨key, value, hp⟩ | ⟨hp, ht⟩
  · rw [hp, toText]
    refine ⟨fun h other text he => ?_, fun h => (h key value rfl).symm⟩
    obtain ⟨rfl, rfl⟩ := pair.inj he
    exact h.symm
  · exact iff_of_true ht fun key value he => absurd he (hp key value)

/-- What is written for a line is read as the same line. -/
theorem parse_toText_parse (hl : '\n' ∉ raw) : parse (parse raw).toText = parse raw := by
  rcases toText_parse_or raw with ⟨key, value, hp⟩ | ⟨-, ht⟩
  · obtain ⟨hkey, hvalue⟩ := isKey_of_pairOn? hl (pairOn?_eq_some_iff.mpr hp)
    rw [hp, toText, ← pairOn?_eq_some_iff, pairOn?_append hkey, hvalue.trimmed]
  · rw [ht]

theorem line_toText_parse (hl : '\n' ∉ raw) : '\n' ∉ (parse raw).toText := by
  rcases toText_parse_or raw with ⟨key, value, hp⟩ | ⟨-, ht⟩
  · obtain ⟨hkey, hvalue⟩ := isKey_of_pairOn? hl (pairOn?_eq_some_iff.mpr hp)
    rw [hp, toText]
    simp [hkey.line, hvalue.line]
  · rwa [ht]

end Line

/-- The lines of a file that is written are the texts of those that were read. -/
theorem rawLines_render_parse (content : Text) :
    rawLines (render (parse content)) = (rawLines content).map fun raw => (Line.parse raw).toText := by
  rw [render_eq, parse_eq, List.map_map, rawLines_closed (by simpa using rawLines_ne_nil content)]
  · rfl
  · exact List.forall_mem_map.mpr fun raw hr => Line.line_toText_parse (line_of_mem_rawLines hr)

theorem parse_render_parse (content : Text) : parse (render (parse content)) = parse content := by
  rw [parse_eq (render _), rawLines_render_parse, List.map_map, parse_eq]
  exact List.map_congr_left fun raw hr => Line.parse_toText_parse (line_of_mem_rawLines hr)

/-- A file that is read and written keeps its lines, each with its kind, its key and its value, and so
its entries, through any number of such cycles. It is written letter by letter as it was exactly if a
line feed ends it and no pair line has anything around its key and its value. -/
theorem reading_stable (content : Text) :
    parse (render (parse content)) = parse content ∧
    (∀ cycles, let again := (fun text => render (parse text))^[cycles] content
      parse again = parse content ∧ entries (parse again) = entries (parse content)) ∧
    (render (parse content) = content ↔ content.getLast? = some '\n' ∧
      ∀ raw ∈ rawLines content, ∀ key value, Line.parse raw = .pair key value →
        raw = key ++ '=' :: value) := by
  refine ⟨parse_render_parse content, ?_, ?_⟩
  · intro cycles again
    have hsame : parse again = parse content := by
      induction cycles with
      | zero => rfl
      | succ cycles ih =>
        change parse ((fun text => render (parse text))^[cycles + 1] content) = _
        rw [Function.iterate_succ_apply', parse_render_parse]
        exact ih
    exact ⟨hsame, by rw [hsame]⟩
  · have hlines : rawLines (render (parse content)) = rawLines content ↔
        ∀ raw ∈ rawLines content, (Line.parse raw).toText = raw := by
      rw [rawLines_render_parse]
      nth_rewrite 2 [← List.map_id (rawLines content)]
      exact List.map_inj_left
    have hclosed : (render (parse content)).getLast? = some '\n' := by
      rw [render_eq]
      exact getLast?_closed (by simpa [parse_eq] using rawLines_ne_nil content)
    simp only [← Line.toText_parse_eq_iff]
    rw [← hlines]
    constructor
    · intro h
      rw [h] at hclosed
      exact ⟨hclosed, by rw [h]⟩
    · rintro ⟨hlast, h⟩
      rw [← closed_rawLines hclosed, h, closed_rawLines hlast]

/-- Blanks around a divider go, a carriage return and a missing last line feed show. -/
example : render (parse "# a\n k = v=w \n=x\r\n".toList) = "# a\nk=v=w\n=x\r\n".toList := by
  decide +kernel

end MessageKeys.Properties
