import MessageKeys.Proofs.Markup.Preparation

/-!
# Which spans a re-indexing renames

Only the spans of repeated keys get other keys, and their numbers rise from span to span. A key is
numbered once: what its numbering makes is none of the keys that are numbered later, even if one of
these looks like a numbered name. So what stands in its places after its own numbering stands there
in the end.
-/
namespace MessageKeys.Markup

variable {key : Text} {start : Nat} {keys taken later before between after : List Text}

/-- The names that stand `after` where the key stood `before`. -/
def inPlaceOf (key : Text) (after before : List Text) : List Text :=
  ((after.zip before).filter (·.2 = key)).map Prod.fst

theorem inPlaceOf_cons (key new old : Text) (after before : List Text) :
    inPlaceOf key (new :: after) (old :: before) =
      if old = key then new :: inPlaceOf key after before else inPlaceOf key after before := by
  by_cases h : old = key <;> simp [inPlaceOf, h]

/-- Where the names in the places of a key are not exchanged again, they stand there in the end. -/
theorem inPlaceOf_congr_left {R S : Text → Text → Prop} (hr : List.Forall₂ R after between)
    (hs : List.Forall₂ S between before) (h : ∀ new mid, R new mid → S mid key → new = mid) :
    inPlaceOf key after before = inPlaceOf key between before := by
  induction hr generalizing before with
  | nil => cases hs; rfl
  | @cons new mid after between hnew _ ih =>
    cases hs with
    | @cons _ old _ before hmid hs =>
      rw [inPlaceOf_cons, inPlaceOf_cons, ih hs]
      by_cases ho : old = key
      · subst ho
        rw [h new mid hnew hmid]
      · rw [if_neg ho, if_neg ho]

/-- A key that keeps its places and gets no others has the same names in them. -/
theorem inPlaceOf_congr_right {S : Text → Text → Prop} (hs : List.Forall₂ S between before)
    (h : ∀ mid old, S mid old → (mid = key ↔ old = key)) (after : List Text) :
    inPlaceOf key after between = inPlaceOf key after before := by
  induction hs generalizing after with
  | nil => rfl
  | @cons mid old between before hmid _ ih =>
    cases after with
    | nil => rfl
    | cons new after => rw [inPlaceOf_cons, inPlaceOf_cons, ih, if_congr (h mid old hmid) rfl rfl]

/-- A numbering of plain names gives new ones in the places of its key, and leaves the others. -/
theorem Numbers.places (h : Numbers key start taken later before after)
    (hp : ∀ name ∈ before, Plain name) :
    List.Forall₂ (fun new old => if old = key then new ∉ taken else new = old) after before := by
  induction h with
  | nil h => exact .nil
  | @cons start next taken more later before after name new first rest ih =>
    obtain ⟨hname, hp⟩ := List.forall_mem_cons.mp hp
    refine .cons ?_ ((ih hp).imp fun new old hr => ?_)
    · cases first with
      | same hb hi hm =>
        rw [if_neg]
        rintro rfl
        exact hb (.refl _)
      | number index hb hs hi hn hm =>
        obtain rfl := hb.eq_of_plain hname
        rwa [if_pos rfl]
    · split at hr
      · next ho =>
        rw [if_pos ho]
        exact fun ht => hr (first.subset ht)
      · next ho => rwa [if_neg ho]

/-- The numbers of a plain key rise from one of its places to the next. -/
theorem Numbers.rising (h : Numbers key start taken later before after)
    (hp : ∀ name ∈ before, Plain name) :
    ∃ numbers : List Nat, numbers.Pairwise (· < ·) ∧ (∀ number ∈ numbers, start ≤ number) ∧
      inPlaceOf key after before = numbers.map (numbered key) := by
  induction h with
  | nil h => exact ⟨[], .nil, by simp, rfl⟩
  | @cons start next taken more later before after name new first rest ih =>
    obtain ⟨hname, hp⟩ := List.forall_mem_cons.mp hp
    obtain ⟨numbers, hrise, hleast, hnames⟩ := ih hp
    rw [inPlaceOf_cons]
    cases first with
    | same hb hi hm =>
      have hne : name ≠ key := fun he => hb (he ▸ .refl _)
      exact ⟨numbers, hrise, fun number hn => hi.trans (hleast number hn), by rw [if_neg hne, hnames]⟩
    | number index hb hs hi hn hm =>
      obtain rfl := hb.eq_of_plain hname
      refine ⟨index :: numbers, .cons (fun number hn => hi.trans_le (hleast number hn)) hrise, ?_, ?_⟩
      · exact List.forall_mem_cons.mpr ⟨hs, fun number hn => (hs.trans hi.le).trans (hleast number hn)⟩
      · rw [if_pos rfl, hnames, List.map_cons]

namespace NumbersAll

/-- Keys that are not numbered stay. -/
theorem kept (h : NumbersAll keys taken later before after) (hp : ∀ name ∈ before, Plain name) :
    List.Forall₂ (fun new old => old ∉ keys → new = old) after before := by
  induction h with
  | nil h names => exact List.forall₂_same.mpr fun _ _ _ => rfl
  | @cons key keys taken more later before between after first rest ih =>
    have hmid := first.forall_mem (fun name index => (plain_numbered index).mpr) hp
    refine forall₂_comp ?_ (ih hmid) (first.places hp)
    intro new mid old hlast hfirst ho
    obtain ⟨hne, ho⟩ := not_or.mp (mt List.mem_cons.mpr ho)
    rw [if_neg hne] at hfirst
    subst hfirst
    exact hlast ho

/-- The numbers of each key rise. The names that are made for a key are none of the keys, so they are
not numbered again and no other key gets a place by them. -/
theorem rising (h : NumbersAll keys taken later before after) (ht : keys ⊆ taken)
    (hp : ∀ name ∈ before, Plain name) {key : Text} (hk : key ∈ keys) :
    ∃ numbers : List Nat, numbers.Pairwise (· < ·) ∧
      inPlaceOf key after before = numbers.map (numbered key) := by
  induction h with
  | nil h names => simp at hk
  | @cons first keys taken more later before between after hfirst rest ih =>
    have hmid := hfirst.forall_mem (fun name index => (plain_numbered index).mpr) hp
    have hplaces := hfirst.places hp
    obtain ⟨htk, hts⟩ := List.cons_subset.mp ht
    by_cases he : key = first
    · subst he
      obtain ⟨numbers, hrise, -, hnames⟩ := hfirst.rising hp
      refine ⟨numbers, hrise, ?_⟩
      rw [← hnames]
      refine inPlaceOf_congr_left (rest.kept hmid) hplaces fun new mid hlast hnew => ?_
      rw [if_pos rfl] at hnew
      exact hlast fun hm => hnew (hts hm)
    · replace hk := List.mem_of_ne_of_mem he hk
      obtain ⟨numbers, hrise, hnames⟩ := ih (List.Subset.trans hts hfirst.subset) hmid hk
      refine ⟨numbers, hrise, ?_⟩
      rw [← hnames]
      refine (inPlaceOf_congr_right hplaces (fun mid old hr => ?_) after).symm
      split at hr
      · next ho =>
        subst ho
        exact iff_of_false (fun hm => hr (hm ▸ hts hk)) (Ne.symm he)
      · rw [hr]

end NumbersAll

/-- Where no key holds a bracket and no text an opening mark, re-indexing renames exactly the spans of
repeated keys. The spans stay in their places, with their texts and the plain text in front of them;
a key that occurs once stays; the spans of a repeated key get rising numbers; and no two spans share a
key afterwards. -/
theorem reindex_renames_repeated (document : Text) (hk : ∀ span ∈ spans document, '[' ∉ span.key)
    (ht : ∀ span ∈ spans document, ¬ openMark <:+: span.text) :
    let reindexed := reindex document (scan document).messages (scan document).duplicates
    let keys := (spans document).map Span.key
    let newKeys := (spans reindexed.document).map Span.key
    List.Forall₂ (fun new old => new.text = old.text ∧ (keys.count old.key = 1 → new.key = old.key))
      (spans reindexed.document) (spans document) ∧
    (Layout.ofText reindexed.document).parts.map Part.before =
      (Layout.ofText document).parts.map Part.before ∧
    (∀ key, 1 < keys.count key → ∃ numbers : List Nat, numbers.Pairwise (· < ·) ∧
      inPlaceOf key newKeys keys = numbers.map (numbered key)) ∧
    newKeys.Nodup := by
  intro reindexed keys newKeys
  have hapart : Apart document true := apart_of_spans hk ht
  have hplain : ∀ key ∈ (Layout.ofText document).parts.map Part.key, Plain key := by
    rw [← map_key_spans]
    exact List.forall_mem_map.mpr fun span hs hi => hk span hs (hi.subset (by decide))
  have hduplicate : ∀ key, key ∈ (scan document).duplicates ↔ 1 < keys.count key := fun key => by
    rw [mem_duplicates_scan, ← map_key_spans]
  obtain ⟨hnodup, hrenewed⟩ := hapart.reindexed
  obtain ⟨later, hnumbers⟩ := hapart.numbers
  refine ⟨?_, ?_, fun key hc => ?_, ?_⟩
  · have hkept := hnumbers.kept hplain
    rw [List.forall₂_map_left_iff, List.forall₂_map_right_iff] at hkept
    refine (@forall₂_spans_iff (fun new old => new.2 = old.2 ∧
      (keys.count old.1 = 1 → new.1 = old.1)) _ _).mpr ?_
    refine (forall₂_and hrenewed hkept).imp fun new old hr => ⟨hr.2.1.text, fun hc => hr.2.2 ?_⟩
    rw [hduplicate]
    exact hc.not_gt
  · exact map_eq_of_forall₂ (hrenewed.imp fun new old hr => hr.before)
  · have hrising := hnumbers.rising (numberable_scan document).listed hplain ((hduplicate key).mpr hc)
    rwa [← map_key_spans, ← map_key_spans] at hrising
  · rwa [← map_key_spans] at hnodup

/-- A repeated key, a repeated key that looks like a numbered one, and an unfinished marker. -/
theorem reindex_renames_repeated_chained :
    let document := ("[msg:a]x[/msg] [msg:a_0]y[/msg] [msg:a]z[/msg][msg:a_0]w[/msg]" ++
      "[msg:b]v[/msg] [msg:a][/msg [msg:a").toList
    let reindexed := reindex document (scan document).messages (scan document).duplicates
    let keys := (spans document).map Span.key
    let newKeys := (spans reindexed.document).map Span.key
    (∀ span ∈ spans document, '[' ∉ span.key) ∧
      (∀ span ∈ spans document, ¬ openMark <:+: span.text) ∧
      1 < keys.count "a".toList ∧ newKeys.Nodup ∧
      ∃ numbers : List Nat, numbers.Pairwise (· < ·) ∧
        inPlaceOf "a".toList newKeys keys = numbers.map (numbered "a".toList) := by
  intro document reindexed keys newKeys
  have hk : ∀ span ∈ spans document, '[' ∉ span.key := by decide +kernel
  have ht : ∀ span ∈ spans document, ¬ openMark <:+: span.text := by decide +kernel
  have hc : 1 < keys.count "a".toList := by decide +kernel
  obtain ⟨-, -, hnumbers, hnodup⟩ := reindex_renames_repeated document hk ht
  exact ⟨hk, ht, hc, hnodup, hnumbers _ hc⟩

end MessageKeys.Markup
