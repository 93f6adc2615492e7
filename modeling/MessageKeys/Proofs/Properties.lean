import Mathlib.Data.List.Infix
import MessageKeys.Properties
import MessageKeys.Proofs.OrderedMap
import MessageKeys.Proofs.Text.Blank
import MessageKeys.Proofs.Text.Cut
import MessageKeys.Proofs.Text.Pieces

/-!
# What property files can carry

As nothing is escaped, a pair is read back from the line it was written on exactly if its key and
its value have the form that reading gives to every key and value.
-/
namespace MessageKeys.Properties

variable {raw key value content : Text}

/-- What can stand in front of the dividing `=`. -/
structure IsKey (key : Text) : Prop where
  ne_nil : key ≠ []
  trimmed : key.trim = key
  divider : '=' ∉ key
  line : '\n' ∉ key
  comment : key.head? ≠ some '#'

/-- What can stand after it. -/
structure IsValue (value : Text) : Prop where
  trimmed : value.trim = value
  line : '\n' ∉ value

instance (key : Text) : Decidable (IsKey key) :=
  decidable_of_iff (key ≠ [] ∧ key.trim = key ∧ '=' ∉ key ∧ '\n' ∉ key ∧ key.head? ≠ some '#')
    ⟨fun ⟨hn, ht, hd, hl, hc⟩ => ⟨hn, ht, hd, hl, hc⟩,
      fun h => ⟨h.ne_nil, h.trimmed, h.divider, h.line, h.comment⟩⟩

instance (value : Text) : Decidable (IsValue value) :=
  decidable_of_iff (value.trim = value ∧ '\n' ∉ value)
    ⟨fun ⟨ht, hl⟩ => ⟨ht, hl⟩, fun h => ⟨h.trimmed, h.line⟩⟩

/-- What is added to a key, be it an empty one, makes a key. -/
theorem isKey_append {more : Text} (hk : key = [] ∨ IsKey key) (hn : more ≠ [])
    (hm : ∀ c ∈ more, isBlank c = false ∧ c ≠ '=' ∧ c ≠ '#') : IsKey (key ++ more) := by
  have hlines : '=' ∉ key ∧ '\n' ∉ key := by
    rcases hk with rfl | hk
    · simp
    · exact ⟨hk.divider, hk.line⟩
  have hhead : ∀ c ∈ (key ++ more).head?, isBlank c = false ∧ c ≠ '#' := by
    intro c hc
    rcases hk with rfl | hk
    · obtain ⟨hb, -, hh⟩ := hm c (List.mem_of_mem_head? hc)
      exact ⟨hb, hh⟩
    · rw [List.head?_append_of_ne_nil _ hk.ne_nil] at hc
      exact ⟨Text.not_blank_head hk.trimmed c hc, fun he => hk.comment (he ▸ hc)⟩
  refine ⟨by simp [hn], Text.trim_eq_self (fun c hc => (hhead c hc).1) fun c hc => ?_, ?_, ?_, ?_⟩
  · rw [List.getLast?_append_of_ne_nil _ hn] at hc
    exact (hm c (List.mem_of_mem_getLast? hc)).1
  · intro he
    exact (List.mem_append.mp he).elim hlines.1 fun he => (hm _ he).2.1 rfl
  · intro he
    exact (List.mem_append.mp he).elim hlines.2 fun he => absurd (hm _ he).1 (by decide)
  · exact fun he => (hhead _ he).2 rfl

/-- The pair on one line, if there is one. -/
def pairOn? (raw : Text) : Option (Text × Text) :=
  (Line.parse raw).pair?

theorem pairOn?_eq (raw : Text) :
    pairOn? raw = if raw.trim.head? = some '#' then none else splitPair? raw.trim := by
  unfold pairOn? Line.parse
  split
  · next h => simp [h, Line.pair?, splitPair?, Text.cut?]
  · next h => simp [h, Line.pair?]
  · next hn hc =>
    rw [if_neg]
    · cases splitPair? raw.trim <;> rfl
    · intro hh
      obtain ⟨rest, hr⟩ := List.head?_eq_some_iff.mp hh
      exact hc rest hr

theorem splitPair?_eq_some (h : splitPair? raw = some (key, value)) :
    ∃ front back, raw.cut? ['='] = some (front, back) ∧ front.trim ≠ [] ∧ key = front.trim ∧
      value = back.trim := by
  simp only [splitPair?, bind, Option.bind_eq_some_iff, Prod.exists] at h
  obtain ⟨front, back, hc, hi⟩ := h
  split at hi
  · simp at hi
  · next hn =>
    obtain ⟨rfl, rfl⟩ := by simpa using hi
    exact ⟨front, back, hc, by simpa using hn, rfl, rfl⟩

/-- Whatever is read has the form of a key and of a value. -/
theorem isKey_of_pairOn? (hl : '\n' ∉ raw) (h : pairOn? raw = some (key, value)) :
    IsKey key ∧ IsValue value := by
  rw [pairOn?_eq] at h
  split at h
  · simp at h
  · next hc =>
    obtain ⟨front, back, hcut, hn, rfl, rfl⟩ := splitPair?_eq_some h
    have hraw := Text.cut?_eq hcut
    have hfront : front ≠ [] := by
      rintro rfl
      exact hn rfl
    have hhead : raw.trim.head? = front.head? := by
      obtain ⟨c, more, rfl⟩ := List.exists_cons_of_ne_nil hfront
      rw [hraw]
      rfl
    have hnl : ∀ part : Text, part <:+: raw.trim → '\n' ∉ part :=
      fun part hp hm => hl ((Text.isInfix_trim raw).subset (hp.subset hm))
    have hstart : Text.trimStart front = front := by
      refine Text.trimStart_eq_self fun c hm => ?_
      exact Text.not_blank_of_head?_trim (by rwa [hhead])
    refine ⟨⟨hn, Text.trim_trim front, ?_, ?_, ?_⟩, Text.trim_trim back, ?_⟩
    · intro hm
      refine Text.not_infix_of_cut? (by simp) hcut ?_
      exact (List.singleton_infix_iff '=' _).mpr ((Text.isInfix_trim front).subset hm)
    · refine hnl _ ((Text.isInfix_trim front).trans ?_)
      exact ⟨[], ['='] ++ back, by simp [hraw]⟩
    · intro hh
      refine hc (hhead.trans ?_)
      obtain ⟨rest, hr⟩ := Text.isPrefix_trimEnd (Text.trimStart front)
      rw [← hstart, ← hr, List.head?_append, show (Text.trimEnd (Text.trimStart front)).head? =
        some '#' from hh]
      rfl
    · refine hnl _ ((Text.isInfix_trim back).trans ?_)
      exact ⟨front ++ ['='], [], by simp [hraw]⟩

/-- A key is read back from the front of a line, with the rest of the line as its value. -/
theorem pairOn?_append (hk : IsKey key) (rest : Text) :
    pairOn? (key ++ '=' :: rest) = some (key, rest.trim) := by
  have hhead : (key ++ '=' :: rest).head? = key.head? := by
    obtain ⟨c, more, rfl⟩ := List.exists_cons_of_ne_nil hk.ne_nil
    rfl
  have htrim : Text.trim (key ++ '=' :: rest) = key ++ '=' :: rest.trimEnd := by
    rw [Text.trim, Text.trimStart_eq_self, Text.trimEnd_append_cons (by decide)]
    intro c hc
    exact Text.not_blank_head hk.trimmed c (hhead ▸ hc)
  have hcut : Text.cut? (key ++ '=' :: rest.trimEnd) ['='] = some (key, rest.trimEnd) := by
    have hclear : Text.Clear ['='] key (['='] ++ rest.trimEnd) :=
      Text.clear_of_head_not_mem rfl hk.divider
    exact Text.cut?_of_clear hclear
  rw [pairOn?_eq, htrim, if_neg]
  · simp [splitPair?, hcut, hk.trimmed, hk.ne_nil, Text.trim_trimEnd]
  · obtain ⟨c, more, rfl⟩ := List.exists_cons_of_ne_nil hk.ne_nil
    exact hk.comment

/-- The pairs that a text is read as. -/
def pairs (content : Text) : List (Text × Text) :=
  (content.pieces '\n').filterMap pairOn?

theorem pairs_append (a b : Text) : pairs (a ++ '\n' :: b) = pairs a ++ pairs b := by
  rw [pairs, Text.pieces_append, List.filterMap_append]
  rfl

theorem pairs_line (raw : Text) (h : '\n' ∉ raw) : pairs raw = (pairOn? raw).toList := by
  rw [pairs, Text.pieces_of_not_mem h]
  cases hp : pairOn? raw <;> simp [hp]

theorem pairs_comment (h : '\n' ∉ raw) : pairs ('#' :: raw) = [] := by
  have hsharp : isBlank '#' = false := by decide
  have htrim : Text.trim ('#' :: raw) = '#' :: raw.trimEnd := by
    rw [Text.trim, Text.trimStart_eq_self (by simpa using hsharp)]
    exact Text.trimEnd_append_cons hsharp [] raw
  rw [pairs_line _ (by simpa using h), pairOn?_eq, htrim]
  rfl

/-- The empty piece after the last line feed is not a pair. -/
theorem filterMap_parse (content : Text) : (parse content).filterMap Line.pair? = pairs content := by
  have hlines (lines : List Text) :
      (lines.map Line.parse).filterMap Line.pair? = lines.filterMap pairOn? := by
    rw [List.filterMap_map]
    rfl
  unfold parse
  rw [hlines]
  split
  · next h =>
    obtain ⟨front, rfl⟩ := List.getLast?_eq_some_iff.mp h
    rw [Text.pieces_append, pairs_append]
    simp [Text.pieces, pairs, pairOn?, Line.parse, Line.pair?, Text.trim, Text.trimStart, Text.trimEnd]
  · rfl

theorem entries_parse (content : Text) : entries (parse content) = .ofList (pairs content) := by
  rw [entries, filterMap_parse]

theorem isKey_of_mem_pairs (h : (key, value) ∈ pairs content) : IsKey key ∧ IsValue value := by
  obtain ⟨raw, hr, hp⟩ := List.mem_filterMap.mp h
  exact isKey_of_pairOn? (Text.separator_not_mem hr) hp

/-- All entries have the form of pairs. -/
def Writable (map : OrderedMap Text Text) : Prop :=
  ∀ entry ∈ map.entries, IsKey entry.1 ∧ IsValue entry.2

instance (map : OrderedMap Text Text) : Decidable (Writable map) :=
  inferInstanceAs (Decidable (∀ entry ∈ map.entries, IsKey entry.1 ∧ IsValue entry.2))

/-- What was read can be written again. -/
theorem writable_entries (content : Text) : Writable (entries (parse content)) := by
  intro entry he
  rw [entries_parse, ← OrderedMap.get?_eq_some_iff, OrderedMap.get?_ofList] at he
  exact isKey_of_mem_pairs (OrderedMap.mem_of_last? he)

theorem isKey_of_mem_keys (h : key ∈ (entries (parse content)).keys) : IsKey key := by
  obtain ⟨entry, he, rfl⟩ := List.mem_map.mp h
  exact (writable_entries content entry he).1

theorem writable_empty : Writable .empty := by simp [Writable, OrderedMap.empty]

theorem Writable.merge {map later : OrderedMap Text Text} (hm : Writable map)
    (hl : Writable later) : Writable (map.merge later) := by
  intro entry he
  rcases OrderedMap.mem_entries_merge he with he | ⟨he, -⟩
  · exact hl entry he
  · exact hm entry he

/-- What an entry is read back as, once it is written. -/
def spelled (entry : Text × Text) : List (Text × Text) :=
  pairs (entry.1 ++ '=' :: entry.2)

theorem pairs_render (lines : List Line) :
    pairs (render lines) = lines.flatMap fun line => pairs line.toText := by
  induction lines with
  | nil => rfl
  | cons line lines ih =>
    have he : render (line :: lines) = line.toText ++ '\n' :: render lines := by
      simp [render]
    rw [he, pairs_append, ih, List.flatMap_cons]

theorem pairs_render_ofEntries (map : OrderedMap Text Text) :
    pairs (render (ofEntries map)) = map.entries.flatMap spelled := by
  rw [pairs_render, ofEntries, List.flatMap_map]
  rfl

/-- A value on one line loses the white space around it. -/
theorem spelled_of_line (hk : IsKey key) (hl : '\n' ∉ value) :
    spelled (key, value) = [(key, value.trim)] := by
  rw [spelled, pairs_line, pairOn?_append hk]
  · rfl
  · simp [hk.line, hl]

theorem spelled_of_isKey (hk : IsKey key) (hv : IsValue value) :
    spelled (key, value) = [(key, value)] := by
  rw [spelled_of_line hk hv.line, hv.trimmed]

/-- A key of the right form is spelled, even if its value is not. -/
theorem mem_spelled (hk : IsKey key) (value : Text) : key ∈ (spelled (key, value)).map Prod.fst := by
  have hline (line : Text) (hl : '\n' ∉ line) : key ∈ (pairs (key ++ '=' :: line)).map Prod.fst := by
    rw [pairs_line, pairOn?_append hk]
    · simp
    · simp [hk.line, hl]
  by_cases hv : '\n' ∈ value
  · obtain ⟨line, more, rfl, hl⟩ := List.eq_append_cons_of_mem hv
    have he : key ++ '=' :: (line ++ '\n' :: more) = (key ++ '=' :: line) ++ '\n' :: more := by simp
    rw [spelled, he, pairs_append, List.map_append]
    exact List.mem_append_left _ (hline line hl)
  · exact hline value hv

theorem flatMap_spelled {map : OrderedMap Text Text} (h : Writable map) :
    map.entries.flatMap spelled = map.entries := by
  have hentry : map.entries.flatMap spelled = map.entries.flatMap fun entry => [entry] := by
    rw [List.flatMap_def, List.flatMap_def]
    refine congrArg _ (List.map_congr_left fun entry he => ?_)
    exact spelled_of_isKey (h entry he).1 (h entry he).2
  rw [hentry, List.flatMap_singleton']

end MessageKeys.Properties
