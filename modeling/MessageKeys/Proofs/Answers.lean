import Mathlib.Data.List.SplitBy
import MessageKeys.Proofs.Dialogue
import MessageKeys.Proofs.Files.Contents
import MessageKeys.Proofs.Text.Blank

/-!
# Answers and lines

Each question takes one line of the input, whatever the line holds, so the answers stand to the
questions as the lines of the input do. A line says yes by what it spells, and a line that is not
text says no like any other.
-/
namespace MessageKeys.Confirmation

variable {input line : List UInt8}

/-- The lines of an input. Each but the last one ends with its line feed; the last one may. -/
def lines (input : List UInt8) : List (List UInt8) :=
  input.splitBy fun byte _ => byte != 10

theorem flatten_lines (input : List UInt8) : (lines input).flatten = input :=
  List.flatten_splitBy _ input

/-- The next line of an input ends at the first line feed, or with the input. -/
theorem exists_nextLine (input : List UInt8) :
    ∃ body, (∀ byte ∈ body, byte ≠ 10) ∧
      (input = body ∧ nextLine input = (body, []) ∨
        ∃ rest, input = body ++ 10 :: rest ∧ nextLine input = (body ++ [10], rest)) := by
  induction input with
  | nil => exact ⟨[], by simp, .inl ⟨rfl, rfl⟩⟩
  | cons byte input ih =>
    by_cases hfeed : byte = 10
    · exact ⟨[], by simp, .inr ⟨input, by simp [hfeed], by simp [nextLine, hfeed]⟩⟩
    · obtain ⟨body, hbody, ⟨hinput, hnext⟩ | ⟨rest, hinput, hnext⟩⟩ := ih
      · refine ⟨byte :: body, List.forall_mem_cons.mpr ⟨hfeed, hbody⟩, .inl ⟨by rw [hinput], ?_⟩⟩
        simp [nextLine, hfeed, hnext]
      · refine ⟨byte :: body, List.forall_mem_cons.mpr ⟨hfeed, hbody⟩,
          .inr ⟨rest, by rw [hinput]; rfl, ?_⟩⟩
        simp [nextLine, hfeed, hnext]

/-- What is not empty and holds no line feed but at its end is one line. -/
theorem lines_line (hn : line ≠ []) (hline : line.Pairwise fun byte _ => byte ≠ 10) :
    lines line = [line] :=
  List.splitBy_of_isChain hn (hline.isChain.imp fun _ _ h => by simpa using h)

theorem lines_eq_cons (hn : input ≠ []) :
    lines input = (nextLine input).1 :: lines (nextLine input).2 := by
  obtain ⟨body, hbody, ⟨hinput, hnext⟩ | ⟨rest, hinput, hnext⟩⟩ := exists_nextLine input
  · have hline := lines_line hn (List.pairwise_of_forall_mem_list fun _ hb _ _ => hbody _ (hinput ▸ hb))
    rw [hnext, hline, hinput]
    rfl
  · have hline : lines (body ++ [10]) = [body ++ [10]] := by
      refine lines_line (by simp) (List.pairwise_append.mpr ⟨?_, List.pairwise_singleton _ _, ?_⟩)
      · exact List.pairwise_of_forall_mem_list fun _ hb _ _ => hbody _ hb
      · exact fun _ hb _ _ => hbody _ hb
    have hsplit : lines (body ++ [10] ++ rest) = lines (body ++ [10]) ++ lines rest :=
      List.splitBy_append fun byte hb _ _ => by
        obtain rfl : 10 = byte := by simpa using hb
        rfl
    rw [hnext, hinput, ← List.singleton_append, ← List.append_assoc, hsplit, hline]
    rfl

/-- Taking a line leaves the lines behind it; at the end nothing is left as before. -/
theorem lines_snd_nextLine (input : List UInt8) :
    lines (nextLine input).2 = (lines input).drop 1 := by
  by_cases hn : input = []
  · rw [hn]
    rfl
  · rw [lines_eq_cons hn]
    rfl

/-- The line that is taken is the first one, and at the end it is empty and says no. -/
theorem accepts_fst_nextLine (input : List UInt8) :
    accepts (nextLine input).1 = ((lines input)[0]?).any accepts := by
  by_cases hn : input = []
  · rw [hn]
    decide
  · rw [lines_eq_cons hn]
    rfl

/-- The two words that say yes, in small letters. -/
def yesWords : List Text :=
  ["y".toList, "yes".toList]

/-- What a line that says yes spells: one of the two words, in small or capital letters and with
white space around it. -/
def SaysYes (line : List UInt8) : Prop :=
  ∃ lead word trail : Text, line.toByteArray = Text.toBytes (lead ++ (word ++ trail)) ∧
    (∀ c ∈ lead, isBlank c = true) ∧ (∀ c ∈ trail, isBlank c = true) ∧
    word.map Char.toLower ∈ yesWords

theorem isYes_iff {answer : Text} : isYes answer = true ↔ answer.trim.map Char.toLower ∈ yesWords := by
  simp [isYes, yesWords]

theorem trim_of_mem_yesWords {word : Text} (h : word.map Char.toLower ∈ yesWords) :
    word.trim = word := by
  have hends : ∀ spelled ∈ yesWords, (∀ c ∈ spelled.head?, isBlank c = false) ∧
      ∀ c ∈ spelled.getLast?, isBlank c = false := by
    simp [yesWords, show isBlank 'y' = false from rfl, show isBlank 's' = false from rfl]
  obtain ⟨hhead, hlast⟩ := hends _ h
  refine Text.trim_eq_self (fun c hc => ?_) fun c hc => ?_
  · rw [← Text.isBlank_toLower]
    exact hhead _ (by rw [List.head?_map, Option.mem_def.mp hc]; rfl)
  · rw [← Text.isBlank_toLower]
    exact hlast _ (by rw [List.getLast?_map, Option.mem_def.mp hc]; rfl)

theorem accepts_iff : accepts line = true ↔ SaysYes line := by
  constructor
  · intro h
    unfold accepts at h
    split at h
    · next answer hread =>
      obtain ⟨lead, trail, hanswer, hlead, htrail⟩ := Text.exists_trim answer
      refine ⟨lead, answer.trim, trail, ?_, hlead, htrail, isYes_iff.mp h⟩
      rw [← hanswer]
      exact Text.toBytes_of_ofBytes? hread
    · cases h
  · rintro ⟨lead, word, trail, hbytes, hlead, htrail, hword⟩
    rw [accepts, hbytes, Text.ofBytes?_toBytes]
    refine isYes_iff.mpr ?_
    rwa [Text.trim_append_of_blank hlead htrail, trim_of_mem_yesWords hword]

/-- Questions put one after the other are answered by as many lines, and by no once the input is at
its end. -/
theorem answers_run (prompts : List Text) (world : World) :
    (prompts.mapM (confirm false)).run world =
      ((List.range prompts.length).map fun i => ((lines world.input)[i]?).any accepts,
        { world with
          input := ((lines world.input).drop prompts.length).flatten
          output := world.output ++ prompts.flatMap question }) := by
  induction prompts generalizing world with
  | nil => simp [flatten_lines]
  | cons prompt rest ih =>
    rw [List.mapM_cons, Program.run_bind, confirm_run_asked, Program.run_bind, ih, Program.run_pure]
    simp [World.answered, lines_snd_nextLine, accepts_fst_nextLine, List.range_succ_eq_map,
      Function.comp_def]

/-- The lines that are left are lines of what is left. -/
theorem lines_flatten_drop (input : List UInt8) (count : Nat) :
    lines ((lines input).drop count).flatten = (lines input).drop count := by
  induction count generalizing input with
  | zero => rw [List.drop_zero, flatten_lines]
  | succ count ih => rw [Nat.add_comm, ← List.drop_drop, ← lines_snd_nextLine, ih]

/-- Answers stay aligned with the lines of the input. A question is answered with yes exactly if the
line in its place is there and says yes, so a line that is no text says no, as the end of the input
does; so many questions use up so many lines; and the questions are shown in their order. -/
theorem answers_aligned (prompts : List Text) (before : World) :
    ∃ answers after, (prompts.mapM (confirm false)).run before = (answers, after) ∧
      answers.length = prompts.length ∧
      (∀ i, answers[i]? = some true ↔
        i < prompts.length ∧ ∃ line, (lines before.input)[i]? = some line ∧ SaysYes line) ∧
      lines after.input = (lines before.input).drop prompts.length ∧
      after = { before with
        input := after.input
        output := before.output ++ prompts.flatMap fun prompt => prompt ++ " (yes/no): ".toList } := by
  refine ⟨_, _, answers_run prompts before, by simp, fun i => ?_, lines_flatten_drop _ _, rfl⟩
  simp only [List.getElem?_map, Option.map_eq_some_iff, List.getElem?_eq_some_iff, List.length_range,
    List.getElem_range, Option.any_eq_true, accepts_iff]
  constructor
  · rintro ⟨_, ⟨hi, rfl⟩, line, hline, hyes⟩
    exact ⟨hi, line, hline, hyes⟩
  · rintro ⟨hi, line, hline, hyes⟩
    exact ⟨i, ⟨hi, rfl⟩, line, hline, hyes⟩

/-- A line that is no text, an empty one, one without its line feed, and the end of the input. -/
example : (lines [0xff, 10, 10, 89, 13, 10, 32, 121]).map accepts = [false, false, true, true] := by
  decide +kernel

end MessageKeys.Confirmation
