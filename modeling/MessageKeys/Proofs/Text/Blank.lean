import MessageKeys.Text.Blank

/-!
# What is left of a trimmed text

A trimmed text begins and ends with characters that are not white space, and a text that does so is
trimmed already. White space that is put around a text is trimmed away again. A mark without white
space stands in a text exactly if it stands in what trimming leaves of it.
-/
namespace MessageKeys.Text

variable {text mark : Text}

theorem trimStart_suffix (text : Text) : trimStart text <:+ text :=
  List.dropWhile_suffix isBlank

theorem isPrefix_trimEnd (text : Text) : trimEnd text <+: text := by
  rw [← List.reverse_suffix, trimEnd, List.reverse_reverse]
  exact List.dropWhile_suffix isBlank

theorem isInfix_trim (text : Text) : text.trim <:+: text :=
  (isPrefix_trimEnd _).isInfix.trans (trimStart_suffix text).isInfix

theorem not_blank_of_head?_trimStart {c : Char} (h : c ∈ (trimStart text).head?) :
    isBlank c = false := by
  have := List.head?_dropWhile_not isBlank text
  rw [show List.dropWhile isBlank text = trimStart text from rfl, Option.mem_def.mp h] at this
  simpa using this

theorem not_blank_of_getLast?_trimEnd {c : Char} (h : c ∈ (trimEnd text).getLast?) :
    isBlank c = false := by
  rw [trimEnd, List.getLast?_reverse] at h
  have := List.head?_dropWhile_not isBlank text.reverse
  rw [Option.mem_def.mp h] at this
  simpa using this

theorem trimStart_eq_self (h : ∀ c ∈ text.head?, isBlank c = false) : trimStart text = text := by
  cases text with
  | nil => rfl
  | cons c text => simp [trimStart, h c (by simp)]

theorem trimEnd_eq_self (h : ∀ c ∈ text.getLast?, isBlank c = false) : trimEnd text = text := by
  have hr : trimStart text.reverse = text.reverse := trimStart_eq_self (by simpa using h)
  rw [trimEnd, show text.reverse.dropWhile isBlank = text.reverse from hr, List.reverse_reverse]

theorem trimEnd_cons (c : Char) (text : Text) :
    trimEnd (c :: text) = if isBlank c ∧ trimEnd text = [] then [] else c :: trimEnd text := by
  unfold trimEnd
  rw [List.reverse_cons, List.dropWhile_append]
  by_cases he : text.reverse.dropWhile isBlank = []
  · by_cases hc : isBlank c <;> simp [he, hc]
  · simp [he]

theorem trimEnd_append_cons {c : Char} (hc : isBlank c = false) (front back : Text) :
    trimEnd (front ++ c :: back) = front ++ c :: trimEnd back := by
  induction front with
  | nil => simp [trimEnd_cons, hc]
  | cons d front ih =>
    rw [List.cons_append, trimEnd_cons, ih]
    simp

theorem trimEnd_trimEnd (text : Text) : trimEnd (trimEnd text) = trimEnd text :=
  trimEnd_eq_self fun _ => not_blank_of_getLast?_trimEnd

theorem trim_trimEnd (text : Text) : (trimEnd text).trim = text.trim := by
  induction text with
  | nil => rfl
  | cons c text ih =>
    by_cases hc : isBlank c
    · have hs (more : Text) : Text.trim (c :: more) = more.trim := by
        simp [trim, trimStart, hc]
      rw [hs, ← ih, trimEnd_cons]
      split
      · next h => simp [h.2]
      · exact hs _
    · have hs (more : Text) : trimStart (c :: more) = c :: more := by
        simp [trimStart, hc]
      rw [trimEnd_cons, if_neg fun h => hc h.1, trim, trim, hs, hs, trimEnd_cons, trimEnd_cons,
        trimEnd_trimEnd]

/-- Trimming the end leaves the first character, unless nothing is left. -/
theorem not_blank_of_head?_trim {c : Char} (h : c ∈ text.trim.head?) : isBlank c = false := by
  obtain ⟨rest, hr⟩ := isPrefix_trimEnd (trimStart text)
  have hc : c ∈ (trimStart text).head? := by
    rw [← hr, List.head?_append, show (trimEnd (trimStart text)).head? = some c from h]
    rfl
  exact not_blank_of_head?_trimStart hc

theorem not_blank_of_getLast?_trim {c : Char} (h : c ∈ text.trim.getLast?) : isBlank c = false :=
  not_blank_of_getLast?_trimEnd h

theorem trim_eq_self (hh : ∀ c ∈ text.head?, isBlank c = false)
    (hl : ∀ c ∈ text.getLast?, isBlank c = false) : text.trim = text := by
  rw [trim, trimStart_eq_self hh, trimEnd_eq_self hl]

@[simp] theorem trim_trim (text : Text) : text.trim.trim = text.trim :=
  trim_eq_self (fun _ => not_blank_of_head?_trim) (fun _ => not_blank_of_getLast?_trim)

/-- What is trimmed away is white space. -/
theorem exists_trim (text : Text) :
    ∃ lead trail, text = lead ++ (text.trim ++ trail) ∧ (∀ c ∈ lead, isBlank c = true) ∧
      ∀ c ∈ trail, isBlank c = true := by
  have hblank (word : Text) : ∀ c ∈ word.takeWhile isBlank, isBlank c = true :=
    List.all_eq_true.mp List.all_takeWhile
  refine ⟨text.takeWhile isBlank, ((trimStart text).reverse.takeWhile isBlank).reverse, ?_,
    hblank text, fun c hc => hblank _ c (List.mem_reverse.mp hc)⟩
  rw [trim, trimEnd, ← List.reverse_append, List.takeWhile_append_dropWhile, List.reverse_reverse,
    trimStart, List.takeWhile_append_dropWhile]

/-- White space at both ends is trimmed away with the rest of it. -/
theorem trim_append_of_blank {lead trail : Text} (hl : ∀ c ∈ lead, isBlank c = true)
    (ht : ∀ c ∈ trail, isBlank c = true) : Text.trim (lead ++ (text ++ trail)) = text.trim := by
  have hstart : Text.trim (lead ++ (text ++ trail)) = Text.trim (text ++ trail) := by
    rw [trim, trimStart, List.dropWhile_append_of_pos hl]
    rfl
  have hend : trimEnd (text ++ trail) = trimEnd text := by
    rw [trimEnd, List.reverse_append, List.dropWhile_append_of_pos fun c hc =>
      ht c (List.mem_reverse.mp hc)]
    rfl
  rw [hstart, ← trim_trimEnd, hend, trim_trimEnd]

theorem not_blank_head (h : text.trim = text) : ∀ c ∈ text.head?, isBlank c = false :=
  fun _ hc => not_blank_of_head?_trim (h.symm ▸ hc)

theorem not_blank_of_letter {c : Char} (hl : 65 ≤ c.toNat) (hu : c.toNat ≤ 122) :
    isBlank c = false := by
  simp only [isBlank, Bool.or_eq_false_iff, Bool.and_eq_false_iff, decide_eq_false_iff_not,
    beq_eq_false_iff_ne]
  omega

theorem isBlank_toLower (c : Char) : isBlank c.toLower = isBlank c := by
  by_cases h : 65 ≤ c.toNat ∧ c.toNat ≤ 90
  · have hlower : c.toLower.toNat = c.toNat + 32 := by
      refine (congrArg Char.toNat (dif_pos h)).trans ?_
      change (c.val + 32).toNat = c.val.toNat + 32
      have : c.val.toNat ≤ 90 := h.2
      rw [UInt32.toNat_add]
      simp
      omega
    rw [not_blank_of_letter h.1 (by omega), not_blank_of_letter (by omega) (by omega)]
  · exact congrArg isBlank (dif_neg h)

theorem infix_trimStart (hm : mark ≠ []) (hb : ∀ c ∈ mark, isBlank c = false)
    (h : mark <:+: text) : mark <:+: trimStart text := by
  induction text with
  | nil => exact h
  | cons c text ih =>
    by_cases hc : isBlank c
    · rw [trimStart, List.dropWhile_cons_of_pos hc]
      rcases List.infix_cons_iff.mp h with ⟨rest, hr⟩ | h
      · obtain ⟨m, mark, rfl⟩ := List.exists_cons_of_ne_nil hm
        obtain ⟨rfl, -⟩ := List.cons.inj hr
        simp [hb m (by simp)] at hc
      · exact ih h
    · rwa [trimStart, List.dropWhile_cons_of_neg hc]

theorem infix_trimEnd (hm : mark ≠ []) (hb : ∀ c ∈ mark, isBlank c = false)
    (h : mark <:+: text) : mark <:+: trimEnd text := by
  have hr : mark.reverse <:+: trimStart text.reverse :=
    infix_trimStart (by simpa using hm) (by simpa using hb) (List.reverse_infix.mpr h)
  rw [← List.reverse_infix, trimEnd, List.reverse_reverse]
  exact hr

theorem infix_trim_iff (hm : mark ≠ []) (hb : ∀ c ∈ mark, isBlank c = false) :
    mark <:+: text.trim ↔ mark <:+: text :=
  ⟨fun h => h.trans (isInfix_trim text), fun h => infix_trimEnd hm hb (infix_trimStart hm hb h)⟩

end MessageKeys.Text
