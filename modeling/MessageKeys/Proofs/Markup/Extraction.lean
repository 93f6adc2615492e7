import Mathlib.Algebra.BigOperators.Group.List.Lemmas
import Mathlib.Algebra.GroupWithZero.Nat
import Mathlib.Data.List.Forall2
import MessageKeys.Markup.Extraction
import MessageKeys.Proofs.OrderedMap
import MessageKeys.Proofs.Markup.Layout

/-!
# What an extraction says about the parts

The spans carry the keys and the messages of the parts. The messages of a scan are the distinct keys
by first appearance, each with the text of its last part; the numbers stand beside them in the same
order and count every span once; and the duplicates are the keys of several parts.
-/
namespace MessageKeys.Markup

open OrderedMap (firsts last?)

/-- What a part says: its key and its message. -/
def Part.entry (part : Part) : Text × Text :=
  (part.key, part.text)

theorem exists_of_forall₂ {α β : Type} {R : α → β → Prop} {xs : List α} {ys : List β}
    (h : List.Forall₂ R xs ys) {x : α} (hx : x ∈ xs) : ∃ y ∈ ys, R x y := by
  induction h with
  | nil => simp at hx
  | cons hr _ ih =>
    rcases List.mem_cons.mp hx with rfl | hx
    · exact ⟨_, List.mem_cons_self, hr⟩
    · obtain ⟨y, hy, hr⟩ := ih hx
      exact ⟨y, List.mem_cons_of_mem _ hy, hr⟩

theorem map_eq_of_forall₂ {α β : Type} {f : α → β} {xs ys : List α}
    (h : List.Forall₂ (fun x y => f x = f y) xs ys) : xs.map f = ys.map f := by
  rwa [← List.forall₂_eq_eq_eq, List.forall₂_map_left_iff, List.forall₂_map_right_iff]

theorem map_entry_spansFrom (offset : Nat) (parts : List Part) :
    (spansFrom offset parts).map (fun span => (span.key, span.text)) = parts.map Part.entry := by
  induction parts generalizing offset with
  | nil => rfl
  | cons part rest ih => simp [spansFrom, ih, Part.entry]

theorem map_entry_spans (document : Text) :
    (spans document).map (fun span => (span.key, span.text)) =
      (Layout.ofText document).parts.map Part.entry :=
  map_entry_spansFrom 0 _

theorem map_key_spans (document : Text) :
    (spans document).map Span.key = (Layout.ofText document).parts.map Part.key := by
  simpa [Part.entry, Function.comp_def] using congrArg (List.map Prod.fst) (map_entry_spans document)

/-- Relating spans by what they say is relating the parts. -/
theorem forall₂_spans_iff {R : Text × Text → Text × Text → Prop} {a b : Text} :
    List.Forall₂ (fun x y => R (x.key, x.text) (y.key, y.text)) (spans a) (spans b) ↔
      List.Forall₂ (fun x y => R x.entry y.entry) (Layout.ofText a).parts (Layout.ofText b).parts := by
  calc
    _ ↔ List.Forall₂ R ((spans a).map fun span => (span.key, span.text))
        ((spans b).map fun span => (span.key, span.text)) := by
      rw [List.forall₂_map_left_iff, List.forall₂_map_right_iff]
    _ ↔ List.Forall₂ R ((Layout.ofText a).parts.map Part.entry)
        ((Layout.ofText b).parts.map Part.entry) := by
      rw [map_entry_spans, map_entry_spans]
    _ ↔ _ := by rw [List.forall₂_map_left_iff, List.forall₂_map_right_iff]

theorem messages_scan (document : Text) :
    (scan document).messages = .ofList ((Layout.ofText document).parts.map Part.entry) := by
  rw [scan, Extraction.ofSpans, map_entry_spans]

theorem get?_messages_scan (document key : Text) :
    (scan document).messages.get? key = last? key ((Layout.ofText document).parts.map Part.entry) := by
  rw [messages_scan, OrderedMap.get?_ofList]

theorem keys_messages_scan (document : Text) :
    (scan document).messages.keys = firsts ((Layout.ofText document).parts.map Part.key) := by
  rw [messages_scan, OrderedMap.keys_ofList, List.map_map]
  rfl

theorem mem_keys_messages_scan {document key : Text} :
    key ∈ (scan document).messages.keys ↔ ∃ part ∈ (Layout.ofText document).parts, part.key = key := by
  rw [keys_messages_scan, OrderedMap.mem_firsts, List.mem_map]

/-- Where no key stands twice, each part has its message under its own key. -/
theorem get?_messages_scan_of_nodup {document : Text}
    (h : ((Layout.ofText document).parts.map Part.key).Nodup) {part : Part}
    (hp : part ∈ (Layout.ofText document).parts) :
    (scan document).messages.get? part.key = some part.text := by
  have hn : (((Layout.ofText document).parts.map Part.entry).map Prod.fst).Nodup := by
    rwa [List.map_map]
  rw [OrderedMap.get?_eq_some_iff, messages_scan, OrderedMap.entries_ofList_of_nodup _ hn]
  exact List.mem_map_of_mem hp

theorem getD_get?_occurrences (spans : List Span) (key : Text) :
    ((Extraction.ofSpans spans).occurrences.get? key).getD 0 = (spans.map Span.key).count key := by
  have go : ∀ counts : OrderedMap Text Nat, ((spans.foldl (fun counts span =>
      counts.insert span.key ((counts.get? span.key).getD 0 + 1)) counts).get? key).getD 0 =
      (counts.get? key).getD 0 + (spans.map Span.key).count key := by
    induction spans with
    | nil => simp
    | cons span rest ih =>
      intro counts
      rw [List.foldl_cons, ih, OrderedMap.get?_insert, List.map_cons, List.count_cons]
      by_cases h : key = span.key
      · simp [h]
        omega
      · simp [h, Ne.symm h]
  simpa [Extraction.ofSpans] using go .empty

theorem occurrencesOf_scan (document key : Text) :
    (scan document).occurrencesOf key = ((Layout.ofText document).parts.map Part.key).count key := by
  rw [scan, Extraction.occurrencesOf, getD_get?_occurrences, map_key_spans]

/-- The numbers stand under the same keys as the messages, in the same order. -/
theorem keys_occurrences (spans : List Span) :
    (Extraction.ofSpans spans).occurrences.keys = firsts (spans.map Span.key) := by
  -- what is inserted under a key is of no account for the keys
  suffices h : ∀ a b : OrderedMap Text Nat, a.keys = b.keys →
      (spans.foldl (fun counts span =>
        counts.insert span.key ((counts.get? span.key).getD 0 + 1)) a).keys =
      (b.insertAll (spans.map fun span => (span.key, 0))).keys by
    rw [Extraction.ofSpans, h .empty .empty rfl, ← OrderedMap.ofList, OrderedMap.keys_ofList,
      List.map_map]
    rfl
  induction spans with
  | nil => exact fun _ _ h => h
  | cons span rest ih =>
    intro a b h
    exact ih _ _ (by rw [OrderedMap.keys_insert, OrderedMap.keys_insert, h])

theorem entries_occurrences (spans : List Span) :
    (Extraction.ofSpans spans).occurrences.entries =
      (firsts (spans.map Span.key)).map fun key => (key, (spans.map Span.key).count key) := by
  apply OrderedMap.entries_eq_of_keys
  · rw [keys_occurrences, List.map_map]
    exact (List.map_id _).symm
  · intro entry he
    obtain ⟨key, hk, rfl⟩ := List.mem_map.mp he
    have hm : key ∈ (Extraction.ofSpans spans).occurrences.keys := keys_occurrences spans ▸ hk
    obtain ⟨number, hn⟩ := OrderedMap.get?_of_mem_keys hm
    have hcount := getD_get?_occurrences spans key
    rw [hn, Option.getD_some] at hcount
    rw [hn, hcount]

theorem duplicates_ofSpans (spans : List Span) :
    (Extraction.ofSpans spans).duplicates =
      (firsts (spans.map Span.key)).filter fun key => 1 < (spans.map Span.key).count key := by
  rw [Extraction.duplicates, entries_occurrences, List.filter_map, List.map_map]
  exact List.map_id _

theorem nodup_duplicates (spans : List Span) : (Extraction.ofSpans spans).duplicates.Nodup := by
  rw [duplicates_ofSpans]
  exact (OrderedMap.nodup_firsts _).filter _

theorem mem_duplicates_scan {document key : Text} :
    key ∈ (scan document).duplicates ↔
      1 < ((Layout.ofText document).parts.map Part.key).count key := by
  rw [scan, duplicates_ofSpans, map_key_spans, List.mem_filter, OrderedMap.mem_firsts,
    decide_eq_true_iff, and_iff_right_iff_imp]
  exact fun hc => List.count_pos_iff.mp (by omega)

theorem mem_keys_of_mem_duplicates {document key : Text} (h : key ∈ (scan document).duplicates) :
    ∃ part ∈ (Layout.ofText document).parts, part.key = key := by
  have hc := mem_duplicates_scan.mp h
  exact List.mem_map.mp (List.count_pos_iff.mp (by omega))

theorem bracket_not_mem_duplicate {document key : Text} (h : key ∈ (scan document).duplicates) :
    ']' ∉ key := by
  obtain ⟨part, hp, rfl⟩ := mem_keys_of_mem_duplicates h
  exact ((Layout.wellFormed_ofText document).parts part hp).key

/-- A document without duplicates has no key twice, and the other way round. -/
theorem duplicates_scan_eq_nil_iff {document : Text} :
    (scan document).duplicates = [] ↔ ((Layout.ofText document).parts.map Part.key).Nodup := by
  rw [List.nodup_iff_count, List.eq_nil_iff_forall_not_mem]
  exact forall_congr' fun key => by rw [mem_duplicates_scan, Nat.not_lt]

/-- Every key stands once among the distinct ones, with all its places. -/
theorem sum_count_firsts (keys : List Text) : ((firsts keys).map keys.count).sum = keys.length := by
  have hperm : (firsts keys).Perm keys.dedup :=
    (List.perm_ext_iff_of_nodup (OrderedMap.nodup_firsts keys) keys.nodup_dedup).mpr fun key => by
      rw [OrderedMap.mem_firsts, List.mem_dedup]
  have hbeq : (instBEqOfDecidableEq : BEq Text) = List.instBEq := lawful_beq_subsingleton _ _
  rw [(hperm.map keys.count).sum_eq]
  exact hbeq ▸ List.sum_map_count_dedup_eq_length keys

/-- An extraction sums the spans up: messages and numbers have the distinct keys of the spans, in the
order of their first spans; the number of a key is that of its spans, and all numbers make up the
number of spans; its message is that of its last span; and the duplicates are the keys with several
spans, each of them once and in the same order. -/
theorem scan_summarises (document : Text) :
    let found := spans document
    let keys := found.map Span.key
    let extraction := scan document
    extraction.messages.keys = firsts keys ∧
    extraction.occurrences.entries = (firsts keys).map (fun key => (key, keys.count key)) ∧
    (∀ key, extraction.occurrencesOf key = keys.count key) ∧
    extraction.occurrences.values.sum = found.length ∧
    (∀ key, extraction.messages.get? key =
      ((found.filter fun span => span.key = key).getLast?).map Span.text) ∧
    extraction.duplicates = (firsts keys).filter (fun key => 1 < keys.count key) ∧
    extraction.duplicates.Nodup := by
  intro found keys extraction
  have hentries : extraction.occurrences.entries = _ := entries_occurrences found
  refine ⟨?_, hentries, getD_get?_occurrences found, ?_, fun key => ?_, duplicates_ofSpans found,
    nodup_duplicates found⟩
  · rw [keys_messages_scan, ← map_key_spans]
  · rw [OrderedMap.values, hentries, List.map_map]
    exact (sum_count_firsts keys).trans (List.length_map _)
  · rw [get?_messages_scan, ← map_entry_spans, last?, List.filter_map, List.getLast?_map,
      Option.map_map]
    rfl

end MessageKeys.Markup
