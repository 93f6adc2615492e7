import MessageKeys.OrderedMap

/-!
# Laws of ordered maps

A map is known by its keys in their order and by what stands under each of them. Inserting entries
one by one leaves the distinct keys in the order of their first appearance, each with its last
value; inserting only new keys leaves the same keys, each with its first value.
-/
namespace MessageKeys.OrderedMap

variable {κ α β : Type}

theorem ext_entries {a b : OrderedMap κ α} (h : a.entries = b.entries) : a = b := by
  cases a
  cases b
  simpa using h

@[simp] theorem keys_empty : (empty : OrderedMap κ α).keys = [] := rfl

theorem mem_keys {map : OrderedMap κ α} {key : κ} :
    key ∈ map.keys ↔ ∃ value, (key, value) ∈ map.entries := by
  simp [keys]

theorem length_keys (map : OrderedMap κ α) : map.keys.length = map.size :=
  List.length_map _

variable [DecidableEq κ]

@[simp] theorem get?_empty (key : κ) : (empty : OrderedMap κ α).get? key = none := rfl

theorem lookup_cons (entry : κ × α) (rest : List (κ × α)) (key : κ) :
    (entry :: rest).lookup key = if key = entry.1 then some entry.2 else rest.lookup key := by
  rw [List.lookup_cons]
  by_cases h : key = entry.1
  · simp [h]
  · simp [h, beq_false_of_ne h]

theorem lookup_eq_some_iff {entries : List (κ × α)} (h : (entries.map Prod.fst).Nodup)
    {key : κ} {value : α} : entries.lookup key = some value ↔ (key, value) ∈ entries := by
  induction entries with
  | nil => simp
  | cons entry rest ih =>
    obtain ⟨k, v⟩ := entry
    obtain ⟨hk, hr⟩ := List.nodup_cons.mp h
    by_cases he : key = k
    · subst he
      have hn : (key, value) ∉ rest := fun hm => hk (List.mem_map.mpr ⟨_, hm, rfl⟩)
      simp [lookup_cons, hn, eq_comm]
    · simp [lookup_cons, ih hr, he]

/-- Where all entries with the key agree, the first one says what each of them says. -/
theorem lookup_eq_some {entries : List (κ × α)} {key : κ} {value : α}
    (h : (key, value) ∈ entries) (hu : ∀ other, (key, other) ∈ entries → other = value) :
    entries.lookup key = some value := by
  induction entries with
  | nil => simp at h
  | cons entry rest ih =>
    rw [lookup_cons]
    by_cases he : key = entry.1
    · subst he
      rw [if_pos rfl, hu entry.2 (by simp)]
    · rw [if_neg he]
      refine ih ?_ fun other ho => hu other (List.mem_cons_of_mem entry ho)
      exact (List.mem_cons.mp h).resolve_left fun hc => he (congrArg Prod.fst hc)

theorem get?_eq_some_iff {map : OrderedMap κ α} {key : κ} {value : α} :
    map.get? key = some value ↔ (key, value) ∈ map.entries :=
  lookup_eq_some_iff map.nodup

theorem get?_eq_none_iff {map : OrderedMap κ α} {key : κ} :
    map.get? key = none ↔ key ∉ map.keys := by
  rw [mem_keys, Option.eq_none_iff_forall_ne_some, not_exists]
  exact forall_congr' fun value => not_congr get?_eq_some_iff

theorem mem_keys_of_get? {map : OrderedMap κ α} {key : κ} {value : α}
    (h : map.get? key = some value) : key ∈ map.keys :=
  mem_keys.mpr ⟨value, get?_eq_some_iff.mp h⟩

theorem mem_values_of_get? {map : OrderedMap κ α} {key : κ} {value : α}
    (h : map.get? key = some value) : value ∈ map.values :=
  List.mem_map.mpr ⟨_, get?_eq_some_iff.mp h, rfl⟩

theorem get?_of_mem_keys {map : OrderedMap κ α} {key : κ} (h : key ∈ map.keys) :
    ∃ value, map.get? key = some value := by
  obtain ⟨value, hv⟩ := mem_keys.mp h
  exact ⟨value, get?_eq_some_iff.mpr hv⟩

theorem contains_iff {map : OrderedMap κ α} {key : κ} :
    map.contains key = true ↔ key ∈ map.keys := by
  simp [contains]

/-- Two maps with the same keys in the same order and the same values are one. -/
theorem eq_of_keys_of_get? {a b : OrderedMap κ α} (hk : a.keys = b.keys)
    (hg : ∀ key ∈ a.keys, a.get? key = b.get? key) : a = b := by
  apply ext_entries
  have rebuilt : ∀ map : OrderedMap κ α,
      map.entries.map some = map.keys.map fun key => (map.get? key).map (key, ·) := by
    intro map
    rw [keys, List.map_map]
    refine List.map_congr_left fun entry he => ?_
    simp [get?_eq_some_iff.mpr he]
  have hs : a.entries.map some = b.entries.map some := by
    rw [rebuilt a, rebuilt b, ← hk]
    exact List.map_congr_left fun key h => by rw [hg key h]
  exact (List.map_inj_right fun _ _ => Option.some.inj).mp hs

theorem eq_empty_of_get? {map : OrderedMap κ α} (h : ∀ key, map.get? key = none) : map = empty := by
  have hk : map.keys = [] := List.eq_nil_iff_forall_not_mem.mpr fun key => get?_eq_none_iff.mp (h key)
  exact eq_of_keys_of_get? hk fun key _ => h key

theorem entries_eq_of_keys {map : OrderedMap κ α} {entries : List (κ × α)}
    (hk : map.keys = entries.map Prod.fst)
    (hg : ∀ entry ∈ entries, map.get? entry.1 = some entry.2) : map.entries = entries := by
  have hn : (entries.map Prod.fst).Nodup := hk ▸ map.nodup
  let whole : OrderedMap κ α := ⟨entries, hn⟩
  have he : map = whole := by
    refine eq_of_keys_of_get? hk fun key hm => ?_
    obtain ⟨entry, hentry, rfl⟩ := List.mem_map.mp (hk ▸ hm)
    have hwhole : whole.get? entry.1 = some entry.2 := get?_eq_some_iff.mpr hentry
    rw [hg entry hentry, hwhole]
  rw [he]

section insert

theorem lookup_insertEntry (key : κ) (value : α) (entries : List (κ × α)) (other : κ) :
    (insertEntry key value entries).lookup other =
      if other = key then some value else entries.lookup other := by
  induction entries with
  | nil => simp [insertEntry, lookup_cons]
  | cons entry rest ih =>
    obtain ⟨k, v⟩ := entry
    by_cases hk : k = key
    · subst hk
      by_cases h : other = k <;> simp [insertEntry, lookup_cons, h]
    · by_cases h : other = k
      · subst h
        simp [insertEntry, hk, lookup_cons]
      · simp [insertEntry, hk, lookup_cons, h, ih]

theorem get?_insert (map : OrderedMap κ α) (key : κ) (value : α) (other : κ) :
    (map.insert key value).get? other = if other = key then some value else map.get? other :=
  lookup_insertEntry key value map.entries other

theorem keys_insert (map : OrderedMap κ α) (key : κ) (value : α) :
    (map.insert key value).keys = if key ∈ map.keys then map.keys else map.keys ++ [key] :=
  keys_insertEntry key value map.entries

theorem entries_insert_of_not_mem {map : OrderedMap κ α} {key : κ} {value : α}
    (h : key ∉ map.keys) : (map.insert key value).entries = map.entries ++ [(key, value)] := by
  have go : ∀ entries : List (κ × α), key ∉ entries.map Prod.fst →
      insertEntry key value entries = entries ++ [(key, value)] := by
    intro entries hn
    induction entries with
    | nil => rfl
    | cons entry rest ih =>
      obtain ⟨k, v⟩ := entry
      simp only [List.map_cons, List.mem_cons, not_or] at hn
      simp [insertEntry, Ne.symm hn.1, ih hn.2]
  exact go map.entries h

/-- The last of two values for one key wins, and the key keeps its place. -/
theorem insert_insert (map : OrderedMap κ α) (key : κ) (value later : α) :
    (map.insert key value).insert key later = map.insert key later := by
  refine eq_of_keys_of_get? ?_ fun other _ => ?_
  · rw [keys_insert, if_pos (mem_keys_of_get? (get?_insert map key value key ▸ if_pos rfl)),
      keys_insert, keys_insert]
  · rw [get?_insert, get?_insert, get?_insert]
    split <;> rfl

theorem insert_eq_self_iff {map : OrderedMap κ α} {key : κ} {value : α} :
    map.insert key value = map ↔ map.get? key = some value := by
  constructor
  · intro h
    rw [← h, get?_insert, if_pos rfl]
  · intro h
    refine eq_of_keys_of_get? (by rw [keys_insert, if_pos (mem_keys_of_get? h)]) fun other _ => ?_
    rw [get?_insert]
    split
    · next ho => rw [ho, h]
    · rfl

theorem get?_insertNew (map : OrderedMap κ α) (key : κ) (value : α) (other : κ) :
    (map.insertNew key value).get? other =
      (map.get? other).or (if other = key then some value else none) := by
  unfold insertNew
  split
  · next h =>
    by_cases he : other = key
    · obtain ⟨v, hv⟩ := get?_of_mem_keys (contains_iff.mp h)
      simp [he, hv]
    · simp [he]
  · next h =>
    have hn : map.get? key = none := get?_eq_none_iff.mpr fun hk => h (contains_iff.mpr hk)
    by_cases he : other = key
    · simp [get?_insert, he, hn]
    · simp [get?_insert, he]

theorem keys_insertNew (map : OrderedMap κ α) (key : κ) (value : α) :
    (map.insertNew key value).keys = if key ∈ map.keys then map.keys else map.keys ++ [key] := by
  unfold insertNew
  by_cases h : key ∈ map.keys
  · simp [contains_iff.mpr h, h]
  · simp [contains_iff, h, keys_insert]

end insert

/-- The distinct ones of the keys, in the order of their first appearance. -/
def firsts : List κ → List κ
  | [] => []
  | key :: rest => key :: (firsts rest).filter (· ≠ key)

@[simp] theorem mem_firsts {keys : List κ} {key : κ} : key ∈ firsts keys ↔ key ∈ keys := by
  induction keys with
  | nil => simp [firsts]
  | cons k rest ih => by_cases h : key = k <;> simp [firsts, ih, h]

theorem filter_firsts (p : κ → Bool) (keys : List κ) :
    (firsts keys).filter p = firsts (keys.filter p) := by
  induction keys with
  | nil => rfl
  | cons k rest ih =>
    rw [firsts, List.filter_cons, List.filter_cons]
    split
    · rw [firsts, ← ih, List.filter_filter, List.filter_filter]
      exact congrArg _ (List.filter_congr fun _ _ => Bool.and_comm _ _)
    · next h =>
      rw [← ih, List.filter_filter]
      refine List.filter_congr fun key _ => ?_
      by_cases he : key = k
      · subst he
        simp [h]
      · simp [he]

/-- The distinct images of keys are those of the distinct keys. -/
theorem firsts_map_firsts [DecidableEq β] (f : κ → β) (keys : List κ) :
    firsts ((firsts keys).map f) = firsts (keys.map f) := by
  induction keys with
  | nil => rfl
  | cons k rest ih =>
    simp only [firsts, List.map_cons, ← ih, List.cons.injEq, true_and]
    rw [filter_firsts _ (List.map f _), filter_firsts _ (List.map f _), List.filter_map,
      List.filter_map, List.filter_filter]
    refine congrArg _ (congrArg _ (List.filter_congr fun key _ => ?_))
    by_cases he : key = k <;> simp [he]

theorem nodup_firsts (keys : List κ) : (firsts keys).Nodup := by
  induction keys with
  | nil => exact .nil
  | cons key rest ih => exact List.nodup_cons.mpr ⟨by simp, ih.filter _⟩

theorem firsts_eq_self {keys : List κ} (h : keys.Nodup) : firsts keys = keys := by
  induction keys with
  | nil => rfl
  | cons key rest ih =>
    obtain ⟨hk, hr⟩ := List.nodup_cons.mp h
    rw [firsts, ih hr, List.filter_eq_self.mpr]
    exact fun other ho => decide_eq_true fun he => hk (he ▸ ho)

/-- Where keys and values tell the same entries apart, one choice of entries has the distinct keys and
the distinct values. -/
theorem exists_firsts [DecidableEq α] {entries : List (κ × α)}
    (h : ∀ a ∈ entries, ∀ b ∈ entries, a.1 = b.1 ↔ a.2 = b.2) :
    ∃ chosen ⊆ entries, chosen.map Prod.fst = firsts (entries.map Prod.fst) ∧
      chosen.map Prod.snd = firsts (entries.map Prod.snd) := by
  induction entries with
  | nil => exact ⟨[], List.Subset.refl _, rfl, rfl⟩
  | cons entry rest ih =>
    obtain ⟨chosen, hsub, hkeys, hvalues⟩ := ih fun a ha b hb =>
      h a (List.mem_cons_of_mem entry ha) b (List.mem_cons_of_mem entry hb)
    refine ⟨entry :: chosen.filter (·.1 ≠ entry.1), ?_, ?_, ?_⟩
    · exact List.cons_subset_cons _ (List.Subset.trans List.filter_sublist.subset hsub)
    · rw [List.map_cons, List.map_cons, firsts, ← hkeys, List.filter_map]
      rfl
    · rw [List.map_cons, List.map_cons, firsts, ← hvalues, List.filter_map]
      refine congrArg _ (congrArg _ (List.filter_congr fun other ho => ?_))
      have hiff := h other (List.mem_cons_of_mem entry (hsub ho)) entry List.mem_cons_self
      simp [hiff]

/-- The value of the last entry with the key. -/
def last? (key : κ) (entries : List (κ × α)) : Option α :=
  ((entries.filter fun entry => entry.1 = key).getLast?).map Prod.snd

theorem last?_cons (key : κ) (entry : κ × α) (rest : List (κ × α)) :
    last? key (entry :: rest) = (last? key rest).or (if entry.1 = key then some entry.2 else none) := by
  by_cases h : entry.1 = key
  · cases hr : (rest.filter fun entry => entry.1 = key).getLast? <;>
      simp [last?, h, List.getLast?_cons, hr]
  · simp [last?, h]

theorem last?_append (key : κ) (a b : List (κ × α)) :
    last? key (a ++ b) = (last? key b).or (last? key a) := by
  simp only [last?, List.filter_append, List.getLast?_append, Option.map_or]

theorem last?_eq_none_iff {key : κ} {entries : List (κ × α)} :
    last? key entries = none ↔ key ∉ entries.map Prod.fst := by
  rw [last?, Option.map_eq_none_iff, List.getLast?_eq_none_iff, List.filter_eq_nil_iff]
  constructor
  · intro h hm
    obtain ⟨entry, he, hk⟩ := List.mem_map.mp hm
    exact h entry he (decide_eq_true hk)
  · intro h entry he hk
    exact h (List.mem_map.mpr ⟨entry, he, of_decide_eq_true hk⟩)

theorem mem_of_last? {key : κ} {entries : List (κ × α)} {value : α}
    (h : last? key entries = some value) : (key, value) ∈ entries := by
  obtain ⟨⟨k, v⟩, hl, rfl⟩ := Option.map_eq_some_iff.mp h
  have hm := List.mem_filter.mp (List.mem_of_getLast? hl)
  obtain rfl : k = key := by simpa using hm.2
  exact hm.1

/-- Where all entries with the key agree, the last one says what each of them says. -/
theorem last?_eq_some {key : κ} {entries : List (κ × α)} {value : α}
    (h : (key, value) ∈ entries) (hu : ∀ other, (key, other) ∈ entries → other = value) :
    last? key entries = some value := by
  cases hl : last? key entries with
  | none => exact absurd (List.mem_map_of_mem h) (last?_eq_none_iff.mp hl)
  | some other => rw [hu other (mem_of_last? hl)]

theorem last?_entries (map : OrderedMap κ α) (key : κ) : last? key map.entries = map.get? key := by
  cases hg : map.get? key with
  | none => exact last?_eq_none_iff.mpr (get?_eq_none_iff.mp hg)
  | some value =>
    refine last?_eq_some (get?_eq_some_iff.mp hg) fun other ho => ?_
    simpa [hg] using (get?_eq_some_iff.mpr ho).symm

/-- Keys may be renamed, some of them to one name, as long as the same was said last of those. -/
theorem last?_map [DecidableEq β] {f : κ → β} {key : κ} {entries : List (κ × α)}
    (hk : key ∈ entries.map Prod.fst)
    (hf : ∀ other ∈ entries.map Prod.fst, f other = f key → last? other entries = last? key entries) :
    last? (f key) (entries.map fun entry => (f entry.1, entry.2)) = last? key entries := by
  obtain ⟨known, hm, rfl⟩ := List.mem_map.mp hk
  cases hl : (entries.filter fun entry => f entry.1 = f known.1).getLast? with
  | none =>
    have hn := List.filter_eq_nil_iff.mp (List.getLast?_eq_none_iff.mp hl) known hm
    simp at hn
  | some entry =>
    obtain ⟨front, hfront⟩ := List.getLast?_eq_some_iff.mp hl
    have he := List.mem_filter.mp (List.mem_of_getLast? hl)
    have hsame : last? entry.1 entries = some entry.2 := by
      have hfine : (entries.filter fun other => other.1 = entry.1) =
          (entries.filter fun other => f other.1 = f known.1).filter fun other =>
            other.1 = entry.1 := by
        rw [List.filter_filter]
        refine List.filter_congr fun other _ => ?_
        by_cases ho : other.1 = entry.1
        · simpa [ho] using he.2
        · simp [ho]
      rw [last?, hfine, hfront, List.filter_append]
      simp
    have hlast : last? (f known.1) (entries.map fun entry => (f entry.1, entry.2)) =
        some entry.2 := by
      rw [last?, List.filter_map, List.getLast?_map]
      simp [Function.comp_def, hl]
    rw [hlast, ← hsame]
    exact hf entry.1 (List.mem_map_of_mem he.1) (of_decide_eq_true he.2)

section insertAll

variable (map : OrderedMap κ α) (entries : List (κ × α))

@[simp] theorem insertAll_nil : map.insertAll [] = map := rfl

@[simp] theorem insertAll_cons (entry : κ × α) :
    map.insertAll (entry :: entries) = (map.insert entry.1 entry.2).insertAll entries := rfl

theorem get?_insertAll (key : κ) :
    (map.insertAll entries).get? key = (last? key entries).or (map.get? key) := by
  induction entries generalizing map with
  | nil => simp [last?]
  | cons entry rest ih =>
    rw [insertAll_cons, ih, get?_insert, last?_cons, Option.or_assoc]
    by_cases h : key = entry.1
    · simp [h]
    · simp [h, Ne.symm h]

theorem keys_insertAll :
    (map.insertAll entries).keys =
      map.keys ++ (firsts (entries.map Prod.fst)).filter (· ∉ map.keys) := by
  induction entries generalizing map with
  | nil => simp [firsts]
  | cons entry rest ih =>
    rw [insertAll_cons, ih, keys_insert, List.map_cons, firsts, List.filter_cons,
      List.filter_filter]
    by_cases h : entry.1 ∈ map.keys
    · simp only [h, if_true, not_true, decide_false, Bool.false_eq_true, if_false]
      refine congrArg _ (List.filter_congr fun key _ => ?_)
      by_cases he : key = entry.1 <;> simp [he, h]
    · simp only [h, if_false, not_false_eq_true, decide_true, if_true, List.append_assoc,
        List.cons_append, List.nil_append]
      refine congrArg _ (congrArg _ (List.filter_congr fun key _ => ?_))
      by_cases he : key = entry.1 <;> simp [he]

theorem get?_ofList (key : κ) : (ofList entries).get? key = last? key entries := by
  rw [ofList, get?_insertAll, get?_empty, Option.or_none]

theorem keys_ofList : (ofList entries).keys = firsts (entries.map Prod.fst) := by
  rw [ofList, keys_insertAll]
  simp

theorem entries_insertAll_of_nodup (h : (entries.map Prod.fst).Nodup)
    (hn : ∀ entry ∈ entries, entry.1 ∉ map.keys) :
    (map.insertAll entries).entries = map.entries ++ entries := by
  induction entries generalizing map with
  | nil => simp
  | cons entry rest ih =>
    obtain ⟨hk, hr⟩ := List.nodup_cons.mp h
    have he : entry.1 ∉ map.keys := hn entry (by simp)
    rw [insertAll_cons, ih _ hr, entries_insert_of_not_mem he, List.append_assoc]
    · rfl
    · intro other ho
      have hne : other.1 ≠ entry.1 := fun e => hk (e ▸ List.mem_map_of_mem ho)
      simp [keys_insert, he, hne, hn other (List.mem_cons_of_mem entry ho)]

/-- Distinct keys are kept as they come. -/
theorem entries_ofList_of_nodup (h : (entries.map Prod.fst).Nodup) :
    (ofList entries).entries = entries := by
  rw [ofList, entries_insertAll_of_nodup _ _ h (by simp)]
  rfl

end insertAll

/-- A map with some of its values changed and the others left out. -/
theorem get?_ofList_filterMap (map : OrderedMap κ α) (f : α → Option β) (key : κ) :
    (ofList (map.entries.filterMap fun entry =>
      (f entry.2).map fun value => (entry.1, value))).get? key = (map.get? key).bind f := by
  have hsub : ((map.entries.filterMap fun entry =>
      (f entry.2).map fun value => (entry.1, value)).map Prod.fst).Sublist
        (map.entries.map Prod.fst) := by
    induction map.entries with
    | nil => simp
    | cons entry rest ih =>
      cases hf : f entry.2 with
      | none => simpa [hf] using ih.cons entry.1
      | some value => simpa [hf] using ih
  refine Option.ext fun value => ?_
  rw [get?_eq_some_iff, entries_ofList_of_nodup _ (hsub.nodup map.nodup), Option.bind_eq_some_iff]
  constructor
  · intro h
    obtain ⟨entry, he, hv⟩ := List.mem_filterMap.mp h
    obtain ⟨new, hf, hp⟩ := Option.map_eq_some_iff.mp hv
    obtain ⟨rfl, rfl⟩ := Prod.mk.inj hp
    exact ⟨entry.2, get?_eq_some_iff.mpr he, hf⟩
  · rintro ⟨old, hg, hf⟩
    exact List.mem_filterMap.mpr ⟨(key, old), get?_eq_some_iff.mp hg, by simp [hf]⟩

theorem get?_merge (map later : OrderedMap κ α) (key : κ) :
    (map.merge later).get? key = (later.get? key).or (map.get? key) := by
  rw [merge, get?_insertAll, last?_entries]

theorem mem_keys_merge {map later : OrderedMap κ α} {key : κ} :
    key ∈ (map.merge later).keys ↔ key ∈ map.keys ∨ key ∈ later.keys := by
  rw [merge, keys_insertAll, List.mem_append, List.mem_filter, mem_firsts]
  change key ∈ map.keys ∨ key ∈ later.keys ∧ _ ↔ _
  by_cases h : key ∈ map.keys <;> simp [h]

/-- Every entry of merged maps is one of the later map, or one of the earlier map under a key that
the later one does not have. -/
theorem mem_entries_merge {map later : OrderedMap κ α} {entry : κ × α}
    (h : entry ∈ (map.merge later).entries) :
    entry ∈ later.entries ∨ entry ∈ map.entries ∧ entry.1 ∉ later.keys := by
  have hg := get?_eq_some_iff.mpr h
  rw [get?_merge, Option.or_eq_some_iff] at hg
  rcases hg with hg | ⟨hn, hg⟩
  · exact .inl (get?_eq_some_iff.mp hg)
  · exact .inr ⟨get?_eq_some_iff.mp hg, get?_eq_none_iff.mp hn⟩

/-- Merged maps have the keys of the map, and then those that only the later map has. -/
theorem keys_merge (map later : OrderedMap κ α) :
    (map.merge later).keys = map.keys ++ later.keys.filter (!map.contains ·) := by
  have hfirsts : firsts (later.entries.map Prod.fst) = later.keys := firsts_eq_self later.nodup
  rw [merge, keys_insertAll, hfirsts]
  exact congrArg _ (List.filter_congr fun key _ => by simp [contains])

/-- The entries of merged maps: those of the map in their places, with the values of the later map
where it has the key, and then the other entries of the later map. -/
theorem entries_merge (map later : OrderedMap κ α) :
    (map.merge later).entries =
      map.entries.map (fun entry => (entry.1, (later.get? entry.1).getD entry.2)) ++
        later.entries.filter (!map.contains ·.1) := by
  apply entries_eq_of_keys
  · rw [keys_merge, List.map_append, List.map_map, keys, keys, List.filter_map]
    rfl
  · intro entry he
    rw [get?_merge]
    rcases List.mem_append.mp he with he | he
    · obtain ⟨old, hm, rfl⟩ := List.mem_map.mp he
      rw [get?_eq_some_iff.mpr hm]
      cases later.get? old.1 <;> rfl
    · obtain ⟨hm, -⟩ := List.mem_filter.mp he
      rw [get?_eq_some_iff.mpr hm, Option.some_or]

/-- Merged maps have the keys of the later map, and those of the other that it lacks. -/
theorem size_merge (map later : OrderedMap κ α) :
    (map.merge later).size = (map.keys.filter (!later.contains ·)).length + later.size := by
  have hshared : (map.keys.filter later.contains).Perm (later.keys.filter map.contains) := by
    refine (List.perm_ext_iff_of_nodup (map.nodup.filter _) (later.nodup.filter _)).mpr fun key => ?_
    rw [List.mem_filter, List.mem_filter, contains_iff, contains_iff, and_comm]
    rfl
  have hlength := hshared.length_eq
  have hmap := (List.filter_append_perm later.contains map.keys).length_eq
  have hlater := (List.filter_append_perm map.contains later.keys).length_eq
  rw [List.length_append] at hmap hlater
  rw [← length_keys, ← length_keys, keys_merge, List.length_append]
  omega

theorem merge_empty (map : OrderedMap κ α) : map.merge .empty = map := rfl

theorem empty_merge (map : OrderedMap κ α) : OrderedMap.empty.merge map = map :=
  ext_entries (entries_ofList_of_nodup map.entries map.nodup)

theorem merge_assoc (a b c : OrderedMap κ α) : (a.merge b).merge c = a.merge (b.merge c) := by
  refine eq_of_keys_of_get? ?_ fun key _ => ?_
  · simp only [keys_merge, List.filter_append, List.filter_filter, List.append_assoc]
    refine congrArg _ (congrArg _ (List.filter_congr fun key _ => ?_))
    rw [Bool.eq_iff_iff]
    simp [contains, mem_keys_merge]
  · rw [get?_merge, get?_merge, get?_merge, get?_merge, Option.or_assoc]

theorem merge_self (map : OrderedMap κ α) : map.merge map = map := by
  refine eq_of_keys_of_get? ?_ fun key _ => ?_
  · have hnone : map.keys.filter (!map.contains ·) = [] := by
      simp [contains]
    rw [keys_merge, hnone, List.append_nil]
  · rw [get?_merge, Option.or_self]

section insertNewAll

variable (map : OrderedMap κ α) (entries : List (κ × α))

/-- Inserts the entries one by one, each unless its key is there already. -/
def insertNewAll (map : OrderedMap κ α) (entries : List (κ × α)) : OrderedMap κ α :=
  entries.foldl (fun m entry => m.insertNew entry.1 entry.2) map

theorem get?_insertNewAll (key : κ) :
    (map.insertNewAll entries).get? key = (map.get? key).or (entries.lookup key) := by
  induction entries generalizing map with
  | nil => simp [insertNewAll]
  | cons entry rest ih =>
    have hstep : map.insertNewAll (entry :: rest) =
        (map.insertNew entry.1 entry.2).insertNewAll rest := rfl
    rw [hstep, ih, get?_insertNew, Option.or_assoc, lookup_cons]
    by_cases h : key = entry.1 <;> simp [h]

theorem keys_insertNewAll :
    (map.insertNewAll entries).keys = (map.insertAll entries).keys := by
  suffices ∀ a b : OrderedMap κ α, a.keys = b.keys →
      (a.insertNewAll entries).keys = (b.insertAll entries).keys from this map map rfl
  induction entries with
  | nil => exact fun _ _ h => h
  | cons entry rest ih =>
    intro a b h
    exact ih _ _ (by rw [keys_insertNew, keys_insert, h])

end insertNewAll

end MessageKeys.OrderedMap
