import MessageKeys.Markup.FreshName
import MessageKeys.Proofs.Markup.Layout

/-!
# Fresh names

A numbering repeats no name, so among one name more than there are taken ones a free one stands,
and the search gives the least index of such a name. A generated name adds no mark to the key it is
made from, and its tag holds no end mark.
-/
namespace MessageKeys

theorem Text.ofNat_injective : Function.Injective Text.ofNat := by
  intro m n h
  have hd := congrArg (Nat.ofDigitChars 10 · 0) (show Nat.toDigits 10 m = Nat.toDigits 10 n from h)
  simpa [Nat.ofDigitChars_ten_toDigits] using hd

theorem Text.isDigit_of_mem_ofNat {c : Char} {n : Nat} (h : c ∈ Text.ofNat n) : c.isDigit :=
  Nat.isDigit_of_mem_toDigits (by decide) (by decide) h

/-- A mark whose last character does not stand in `more` ends before it. -/
theorem Text.infix_of_infix_append {mark text more : Text} (hl : ∀ c ∈ mark.getLast?, c ∉ more)
    (h : mark <:+: text ++ more) : mark <:+: text := by
  obtain ⟨a, b, he⟩ := h
  rcases List.append_eq_append_iff.mp he with ⟨_, rfl, _⟩ | ⟨extra, ho, hm⟩
  · exact ⟨a, _, rfl⟩
  · by_cases hn : mark = []
    · simp [hn]
    by_cases hv : extra = []
    · exact ⟨a, [], by simpa [hv] using ho⟩
    · have hlast : mark.getLast? = some (extra.getLast hv) := by
        have := congrArg List.getLast? ho
        rwa [List.getLast?_append, List.getLast?_append, List.getLast?_eq_some_getLast hv,
          List.getLast?_eq_some_getLast hn, Option.some_or, Option.some_or,
          ← List.getLast?_eq_some_getLast hn] at this
      exact absurd (hm ▸ List.mem_append_left b (List.getLast_mem hv)) (hl _ hlast)

namespace Markup

section search

variable {free : Text → Bool} {name : Nat → Text} {start count : Nat}

theorem start_le_firstFree (free : Text → Bool) (name : Nat → Text) (start count : Nat) :
    start ≤ firstFree free name start count := by
  unfold firstFree
  cases h : (List.range' start count).find? fun index => free (name index) with
  | none => simp
  | some index =>
    have := List.mem_range'_1.mp (List.mem_of_find?_eq_some h)
    simpa using this.1

/-- Where one of the names is free, the search ends at the first such name. -/
theorem firstFree_free (h : ∃ index, start ≤ index ∧ index < start + count ∧ free (name index)) :
    free (name (firstFree free name start count)) := by
  unfold firstFree
  obtain ⟨index, hs, hc, hf⟩ := h
  cases hn : (List.range' start count).find? fun index => free (name index) with
  | none => exact absurd hf (List.find?_eq_none.mp hn index (List.mem_range'_1.mpr ⟨hs, hc⟩))
  | some found => simpa using List.find?_some hn

theorem not_free_of_lt_firstFree {index : Nat} (hs : start ≤ index)
    (h : index < firstFree free name start count) : ¬ free (name index) := by
  unfold firstFree at h
  cases hn : (List.range' start count).find? fun index => free (name index) with
  | none =>
    rw [hn] at h
    exact List.find?_eq_none.mp hn index (List.mem_range'_1.mpr ⟨hs, by simpa using h⟩)
  | some found =>
    rw [hn, Option.getD_some] at h
    obtain ⟨-, before, after, hr, hb⟩ := List.find?_eq_some_iff_append.mp hn
    have hf := List.mem_range'_1.mp (List.mem_of_find?_eq_some hn)
    have hm : index ∈ before ++ found :: after := hr ▸ List.mem_range'_1.mpr ⟨hs, by omega⟩
    have hsorted : (before ++ found :: after).Pairwise (· < ·) := hr ▸ List.pairwise_lt_range'
    rcases List.mem_append.mp hm with hm | hm
    · simpa using hb index hm
    · rcases List.mem_cons.mp hm with rfl | hm
      · omega
      · have := (List.pairwise_append.mp hsorted).2.1
        have := (List.pairwise_cons.mp this).1 index hm
        omega

/-- A numbering that repeats no name gives one that is not taken soon enough. -/
theorem exists_not_taken (hi : Function.Injective name) (taken : List Text) (start : Nat) :
    ∃ index, start ≤ index ∧ index < start + (taken.length + 1) ∧ name index ∉ taken := by
  apply Classical.byContradiction
  intro hn
  have hsub : (List.range' start (taken.length + 1)).map name ⊆ taken := by
    intro text ht
    obtain ⟨index, hr, rfl⟩ := List.mem_map.mp ht
    have hr := List.mem_range'_1.mp hr
    exact Classical.byContradiction fun hf => hn ⟨index, hr.1, hr.2, hf⟩
  have hnodup : ((List.range' start (taken.length + 1)).map name).Nodup :=
    List.Pairwise.map name (fun _ _ h he => h (hi he)) List.nodup_range'
  have hl := hnodup.length_le_of_subset hsub
  rw [List.length_map, List.length_range'] at hl
  omega

end search

theorem numbered_injective (key : Text) : Function.Injective (numbered key) := by
  intro m n h
  have h := List.append_cancel_left h
  exact Text.ofNat_injective (List.cons.inj h).2

theorem numberedMulti_injective (first : Text) : Function.Injective (numberedMulti first) := by
  intro m n h
  cases m with
  | zero => cases n with
    | zero => rfl
    | succ n => exact absurd (congrArg List.length h) (by simp [numberedMulti, numbered])
  | succ m => cases n with
    | zero => exact absurd (congrArg List.length h) (by simp [numberedMulti, numbered])
    | succ n => exact numbered_injective _ h

theorem start_le_freshIndex (taken : List Text) (key : Text) (start : Nat) :
    start ≤ freshIndex taken key start :=
  start_le_firstFree _ _ _ _

theorem numbered_freshIndex_not_mem (taken : List Text) (key : Text) (start : Nat) :
    numbered key (freshIndex taken key start) ∉ taken := by
  obtain ⟨index, hs, hc, hf⟩ := exists_not_taken (numbered_injective key) taken start
  have := @firstFree_free (fun name => !taken.contains name) (numbered key) start
    (taken.length + 1) ⟨index, hs, hc, by simpa using hf⟩
  simpa [freshIndex] using this

/-- A multi name that is taken is the name of one of the owners. -/
theorem mem_owners_of_freshMulti_mem {taken owners : List Text} {first : Text}
    (h : freshMulti taken owners first ∈ taken) : freshMulti taken owners first ∈ owners := by
  obtain ⟨index, hs, hc, hf⟩ := exists_not_taken (numberedMulti_injective first) taken 0
  have hfree := @firstFree_free (fun name => !taken.contains name || owners.contains name)
    (numberedMulti first) 0 (taken.length + 1) ⟨index, hs, hc, by simp [hf]⟩
  rw [← freshMulti, Bool.or_eq_true_iff] at hfree
  rcases hfree with hf | ho
  · simp [h] at hf
  · simpa using ho

/-- A name made from a key: it adds neither a bracket nor a colon, and does not end like the end
mark does. -/
structure Derived (key name : Text) : Prop where
  bracket : ']' ∉ key → ']' ∉ name
  openMark : ¬ openMark <:+: key → ¬ openMark <:+: name
  last : name.getLast? ≠ some 'g'

theorem derived_append {key more : Text} (hb : ']' ∉ more) (hc : ':' ∉ more)
    (hl : (key ++ more).getLast? ≠ some 'g') : Derived key (key ++ more) where
  bracket hk := by simp [hk, hb]
  openMark hk h := by
    have hlast : ∀ c ∈ Markup.openMark.getLast?, c ∉ more := fun c hl => Option.some.inj hl ▸ hc
    exact hk (Text.infix_of_infix_append hlast h)
  last := hl

theorem derived_numbered (key : Text) (index : Nat) : Derived key (numbered key index) := by
  have notDigit : ∀ c : Char, c.isDigit = false → c ∉ Text.ofNat index :=
    fun c hc hm => by simp [Text.isDigit_of_mem_ofNat hm] at hc
  refine derived_append ?_ ?_ ?_
  · simpa using notDigit ']' rfl
  · simpa using notDigit ':' rfl
  · intro hl
    have hne : Text.ofNat index ≠ [] := Nat.toDigits_ne_nil
    rw [List.getLast?_append, List.getLast?_cons_of_ne_nil hne,
      List.getLast?_eq_some_getLast hne, Option.some_or, Option.some.injEq] at hl
    exact notDigit 'g' rfl (hl ▸ List.getLast_mem hne)

theorem Derived.trans {a b c : Text} (hab : Derived a b) (hbc : Derived b c) : Derived a c where
  bracket h := hbc.bracket (hab.bracket h)
  openMark h := hbc.openMark (hab.openMark h)
  last := hbc.last

theorem derived_numberedMulti (first : Text) (index : Nat) :
    Derived first (numberedMulti first index) := by
  have hm : Derived first (first ++ "_multi".toList) := by
    refine derived_append (by decide) (by decide) ?_
    rw [List.getLast?_append, show "_multi".toList.getLast? = some 'i' from rfl, Option.some_or]
    decide
  cases index with
  | zero => exact hm
  | succ index => exact hm.trans (derived_numbered _ _)

/-- The only bracket of a tag is its last character, so an end mark in it is at its end. -/
theorem Derived.not_endMark_infix_tag {key name : Text} (h : Derived key name) (hk : ']' ∉ key) :
    ¬ endMark <:+: tag name := by
  rintro ⟨a, b, he⟩
  have hname := h.bracket hk
  have hb : b = [] := by
    apply Classical.byContradiction
    intro hb
    have hd := congrArg List.dropLast he
    rw [List.dropLast_append_of_ne_nil hb, dropLast_tag] at hd
    have hm : ']' ∈ Markup.openMark ++ name := by
      have he : ']' ∈ endMark := by decide
      rw [← hd]
      simp [he]
    simp [hname, bracket_not_mem_openMark] at hm
  subst hb
  have hd := congrArg (fun text => (text.dropLast).getLast?) he
  simp only [List.append_nil, dropLast_tag, List.getLast?_append] at hd
  rw [List.dropLast_append_of_ne_nil endMark_ne_nil, List.getLast?_append] at hd
  have hg : name.getLast?.or (some ':') = some 'g' := hd.symm
  rcases Option.or_eq_some_iff.mp hg with hg | ⟨_, hg⟩
  · exact h.last hg
  · simp at hg

end Markup
end MessageKeys
