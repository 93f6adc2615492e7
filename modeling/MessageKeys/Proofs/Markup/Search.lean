import Mathlib.Data.Finset.Card
import Mathlib.Order.Bounds.Defs
import MessageKeys.Proofs.Markup.Numbering

/-!
# Searches without a bound

A search that simply goes on until a name is free ends all the same: its names are different, so
among as many as are taken and one more there is one that is not. It ends where the bounded search
does, at the least index of a free name. In a numbering each search goes on where the last one ended,
and no free name is passed over in between.
-/
namespace MessageKeys.Markup

section tries

variable {free : Text → Bool} {name : Nat → Text} {start found tried : Nat}

/-- How a search runs that tries the names of a numbering one after the other for as long as it takes:
from the index where it begins to that of the free name where it ends, with so many names tried. -/
inductive Search (free : Text → Bool) (name : Nat → Text) : Nat → Nat → Nat → Prop where
  | ended {index : Nat} (h : free (name index)) : Search free name index index 1
  | passed {index found tried : Nat} (h : ¬ free (name index))
    (hs : Search free name (index + 1) found tried) : Search free name index found (tried + 1)

theorem Search.isLeast (h : Search free name start found tried) :
    IsLeast {index | start ≤ index ∧ free (name index)} found ∧ tried = found - start + 1 := by
  induction h with
  | @ended index hfree => exact ⟨⟨⟨le_rfl, hfree⟩, fun _ hi => hi.1⟩, by simp⟩
  | @passed index found tried hnot _ ih =>
    obtain ⟨⟨⟨hs, hfree⟩, hleast⟩, htried⟩ := ih
    refine ⟨⟨⟨by omega, hfree⟩, fun other ho => hleast ⟨?_, ho.2⟩⟩, by omega⟩
    exact Nat.lt_of_le_of_ne ho.1 fun he => hnot (he ▸ ho.2)

theorem search_of_isLeast (h : IsLeast {index | start ≤ index ∧ free (name index)} found) :
    Search free name start found (found - start + 1) := by
  obtain ⟨⟨hs, hfree⟩, hleast⟩ := h
  obtain ⟨passed, rfl⟩ := Nat.exists_eq_add_of_le hs
  rw [Nat.add_sub_cancel_left]
  clear hs
  induction passed generalizing start with
  | zero => exact .ended hfree
  | succ passed ih =>
    have hpassed : ¬ free (name start) := fun hf => by
      have := hleast ⟨le_rfl, hf⟩
      omega
    rw [← Nat.add_assoc, Nat.add_right_comm] at hfree hleast ⊢
    exact .passed hpassed (ih (fun index hi => hleast ⟨Nat.le_of_succ_le hi.1, hi.2⟩) hfree)

/-- A search can end only at the first free name, after it tried all in front; and there it ends. -/
theorem search_iff :
    Search free name start found tried ↔
      IsLeast {index | start ≤ index ∧ free (name index)} found ∧ tried = found - start + 1 := by
  constructor
  · exact Search.isLeast
  · rintro ⟨hleast, rfl⟩
    exact search_of_isLeast hleast

/-- Where one of so many names is free, the bounded search gives the first free one of all. -/
theorem isLeast_firstFree {count : Nat}
    (h : ∃ index, start ≤ index ∧ index < start + count ∧ free (name index)) :
    IsLeast {index | start ≤ index ∧ free (name index)} (firstFree free name start count) :=
  ⟨⟨start_le_firstFree free name start count, firstFree_free h⟩, fun _ hi =>
    Nat.le_of_not_lt fun hlt => not_free_of_lt_firstFree hi.1 hlt hi.2⟩

/-- A search with different names ends after at most one name more than there are taken ones, if
every name that is not taken is free. -/
theorem search_ends (free : Text → Bool) (hi : Function.Injective name) (taken : List Text)
    (hfree : ∀ text, text ∉ taken → free text) (start : Nat) :
    let found := firstFree free name start (taken.length + 1)
    IsLeast {index | start ≤ index ∧ free (name index)} found ∧
      ∃ tried ≤ taken.toFinset.card + 1, Search free name start found tried := by
  intro found
  -- repeated entries of the list count once
  obtain ⟨index, hs, hc, hn⟩ := exists_not_taken hi taken.dedup start
  have hindex : free (name index) := hfree _ fun hm => hn (List.mem_dedup.mpr hm)
  have hcard : taken.toFinset.card = taken.dedup.length := List.card_toFinset taken
  have hlength : taken.dedup.length ≤ taken.length := taken.dedup_sublist.length_le
  have hleast : IsLeast {index | start ≤ index ∧ free (name index)} found :=
    isLeast_firstFree ⟨index, hs, by omega, hindex⟩
  have hfound : found ≤ index := hleast.2 ⟨hs, hindex⟩
  exact ⟨hleast, found - start + 1, by omega, search_iff.mpr ⟨hleast, rfl⟩⟩

end tries

theorem isLeast_freshIndex (taken : List Text) (key : Text) (start : Nat) :
    IsLeast {index | start ≤ index ∧ numbered key index ∉ taken} (freshIndex taken key start) := by
  have hends := search_ends (fun name => !taken.contains name) (numbered_injective key) taken
    (fun text hn => by simpa using hn) start
  unfold freshIndex
  simpa using hends.1

/-- The free names among so many from an index on. -/
def freeFrom (key : Text) (taken : List Text) (index count : Nat) : List Text :=
  ((List.range' index count).filter fun other => !taken.contains (numbered key other)).map
    (numbered key)

/-- A name that gets taken is none of those behind it. -/
theorem freeFrom_cons_taken (key : Text) (taken : List Text) (index count : Nat) :
    freeFrom key (numbered key index :: taken) (index + 1) count =
      freeFrom key taken (index + 1) count := by
  unfold freeFrom
  congr 1
  refine List.filter_congr fun other ho => ?_
  have hne : numbered key other ≠ numbered key index := fun he => by
    have ho := List.mem_range'_1.mp ho
    have := numbered_injective key he
    omega
  simp [hne]

/-- Of the names through the first free one only that one is free. -/
theorem freeFrom_freshIndex (key : Text) (taken : List Text) (index : Nat) :
    ∃ passed, ∀ count, freeFrom key taken index (passed + count) =
      numbered key (freshIndex taken key index) ::
        freeFrom key taken (freshIndex taken key index + 1) count := by
  obtain ⟨⟨hs, hn⟩, hleast⟩ := isLeast_freshIndex taken key index
  obtain ⟨passed, hpassed⟩ := Nat.exists_eq_add_of_le hs
  have hnone : (List.range' index passed).filter
      (fun other => !taken.contains (numbered key other)) = [] := by
    refine List.filter_eq_nil_iff.mpr fun other ho hfree => ?_
    have ho := List.mem_range'_1.mp ho
    have := hleast ⟨ho.1, by simpa using hfree⟩
    omega
  refine ⟨passed + 1, fun count => ?_⟩
  rw [freeFrom, freeFrom, Nat.add_assoc, ← List.range'_append_1, ← List.range'_append_1,
    List.filter_append, List.filter_append, hnone, ← hpassed]
  simp [hn]

/-- The new keys of a numbering are all the free names from its first index on, up to some index. -/
theorem exists_newKeys_eq (key : Text) (taken : List Text) (index : Nat) (text : Text) :
    ∃ count, (renumber key taken index text).newKeys = freeFrom key taken index count := by
  induction taken, index, text using renumber.induct key with
  | case1 taken index text front back hcut _ _ _ ih =>
    obtain ⟨count, hcount⟩ := ih
    obtain ⟨passed, hpassed⟩ := freeFrom_freshIndex key taken index
    refine ⟨passed + count, ?_⟩
    rw [renumber_of_cut? hcut, hpassed, ← freeFrom_cons_taken, ← hcount]
  | case2 taken index text hcut =>
    rw [renumber_of_absent hcut]
    exact ⟨0, rfl⟩

/-- The searches for a new key and for a multi name end after at most one name more than there are
taken ones, each at the first name of its numbering that it may take; and what a numbering takes are
all the free names from its first index on, one after the other. -/
theorem fresh_searches_end (taken : List Text) :
    (∀ key start, ∃ tried ≤ taken.toFinset.card + 1,
      Search (fun name => !taken.contains name) (numbered key) start
          (freshIndex taken key start) tried ∧
        IsLeast {index | start ≤ index ∧ numbered key index ∉ taken} (freshIndex taken key start)) ∧
    (∀ first others, ∃ index, ∃ tried ≤ taken.toFinset.card + 1,
      Search (fun name => !taken.contains name || (first :: others).contains name)
          (numberedMulti first) 0 index tried ∧
        IsLeast {index | numberedMulti first index ∉ taken ∨
          numberedMulti first index ∈ first :: others} index ∧
        freshMulti taken (first :: others) first = numberedMulti first index) ∧
    ∀ key start text, ∃ count,
      (renumber key taken start text).newKeys = freeFrom key taken start count := by
  refine ⟨fun key start => ?_, fun first others => ?_,
    fun key start text => exists_newKeys_eq key taken start text⟩
  · have hends := search_ends (fun name => !taken.contains name) (numbered_injective key) taken
      (fun text hn => by simpa using hn) start
    obtain ⟨-, tried, htried, hfound⟩ := hends
    exact ⟨tried, htried, hfound, isLeast_freshIndex taken key start⟩
  · have hends := search_ends (fun name => !taken.contains name || (first :: others).contains name)
      (numberedMulti_injective first) taken (fun text hn => by simp [hn]) 0
    obtain ⟨hleast, tried, htried, hfound⟩ := hends
    exact ⟨_, tried, htried, hfound, by simpa using hleast, rfl⟩

end MessageKeys.Markup
