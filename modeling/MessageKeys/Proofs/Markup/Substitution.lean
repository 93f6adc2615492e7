import MessageKeys.Proofs.Markup.Extraction
import MessageKeys.Proofs.Markup.Replacement
import MessageKeys.Proofs.Text.Blank

/-!
# Replacing tags without nested brackets

Where keys hold no bracket, no tag stands in the key of a part or reaches into its end mark. So a
replacement is in step with every document: reading what it wrote gives the old spans with their keys
looked up in the map and the tags in their texts replaced. A tag is looked up by its key alone, and
what is written for it is not read again.
-/
namespace MessageKeys.Markup

variable {remapped : Messages} {text rest key : Text}

/-- Neither the old keys of the map nor the new ones hold a bracket. -/
def Unbracketed (remapped : Messages) : Prop :=
  ∀ entry ∈ remapped.entries, ('[' ∉ entry.1 ∧ ']' ∉ entry.1) ∧ '[' ∉ entry.2 ∧ ']' ∉ entry.2

instance (remapped : Messages) : Decidable (Unbracketed remapped) :=
  inferInstanceAs (Decidable (∀ entry ∈ remapped.entries,
    ('[' ∉ entry.1 ∧ ']' ∉ entry.1) ∧ '[' ∉ entry.2 ∧ ']' ∉ entry.2))

/-- The one `[` of a tag is its first character, and an end mark does not begin like a tag. -/
theorem not_endMark_infix_tag (hk : '[' ∉ key) : ¬ endMark <:+: tag key := by
  intro h
  have htag : tag key = '[' :: ("msg:".toList ++ key ++ closeBracket) := rfl
  rw [htag] at h
  rcases List.infix_cons_iff.mp h with ⟨rest, hr⟩ | h
  · exact absurd (List.cons.inj (List.cons.inj hr).2).1 (by decide)
  · have hm : '[' ∈ "msg:".toList ++ key ++ closeBracket := h.subset (by decide)
    simp [closeBracket, hk] at hm

/-- A tag is no shorter than an end mark, so it would hold the end mark that it reaches the end of. -/
theorem not_tag_suffix_endMark (hk : '[' ∉ key) : ¬ tag key <:+ text ++ endMark := by
  intro h
  have hlength : endMark.length ≤ (tag key).length := by
    have hopen : openMark.length = 5 := rfl
    have hend : endMark.length = 6 := rfl
    simp only [tag, closeBracket, List.length_append, List.length_singleton, hopen, hend]
    omega
  exact not_endMark_infix_tag hk
    (List.suffix_of_suffix_length_le (List.suffix_append text endMark) h hlength).isInfix

/-- A tag that ends in a text without a closing bracket began in it. -/
theorem tag_begins_append_of_not_mem (hr : ']' ∉ rest) :
    tag key <+: text ++ rest ↔ tag key <+: text := by
  refine ⟨fun ⟨more, hm⟩ => ?_, fun h => h.trans (List.prefix_append text rest)⟩
  rcases List.append_eq_append_iff.mp hm with ⟨inner, rfl, -⟩ | ⟨ahead, he, ha⟩
  · exact List.prefix_append _ inner
  · by_cases hn : ahead = []
    · simp [he, hn]
    · have hlast : ahead.getLast hn = ']' := by
        have hl := congrArg List.getLast? he
        rw [List.getLast?_append, List.getLast?_eq_some_getLast hn, Option.some_or] at hl
        simpa [tag, closeBracket] using hl.symm
      refine absurd ?_ hr
      rw [ha]
      exact List.mem_append_left more (hlast ▸ List.getLast_mem hn)

theorem replaceTags_append_of_not_mem (hr : ']' ∉ rest) :
    replaceTags remapped (text ++ rest) = replaceTags remapped text ++ rest := by
  induction text using @replaceTags_induction remapped with
  | nil =>
    rw [List.nil_append, replaceTags_nil, List.nil_append]
    refine replaceTags_eq_self fun key _ hi => hr (hi.subset ?_)
    simp [tag, closeBracket]
  | copy c text h ih =>
    have hn : leading? remapped (c :: (text ++ rest)) = none := by
      rw [← h, ← List.cons_append]
      exact leading?_congr fun key _ => tag_begins_append_of_not_mem hr
    rw [List.cons_append, replaceTags_cons hn, replaceTags_cons h, ih, List.cons_append]
  | rewrite old new more h ih =>
    have hs : leading? remapped (tag old ++ (more ++ rest)) = some (old, new) := by
      rw [← h, ← List.append_assoc]
      exact leading?_congr fun key _ => tag_begins_append_of_not_mem hr
    rw [List.append_assoc, replaceTags_of_leading? hs, replaceTags_of_leading? h, ih,
      List.append_assoc]

/-- White space around a text is none of its tags, and a tag neither begins nor ends with any. -/
theorem trim_replaceTags (remapped : Messages) (text : Text) :
    (replaceTags remapped text).trim = replaceTags remapped text.trim := by
  have hbracket {blanks : Text} (hb : ∀ c ∈ blanks, isBlank c = true) {c : Char}
      (hc : isBlank c = false) : c ∉ blanks := fun hm => by simp [hb c hm] at hc
  obtain ⟨lead, trail, htext, hlead, htrail⟩ := Text.exists_trim text
  have hret := retagged_replaceTags remapped text.trim
  have htrimmed : (replaceTags remapped text.trim).trim = replaceTags remapped text.trim := by
    refine Text.trim_eq_self (fun c hc => ?_) fun c hc => ?_
    · exact Text.not_blank_of_head?_trim (hret.head?_eq ▸ hc)
    · exact Text.not_blank_of_getLast?_trim (hret.getLast?_eq ▸ hc)
  have hclear : Text.Clear openMark lead (text.trim ++ trail) :=
    Text.clear_of_head_not_mem rfl (hbracket hlead rfl)
  calc (replaceTags remapped text).trim
      = (lead ++ (replaceTags remapped text.trim ++ trail)).trim := by
        nth_rewrite 1 [htext]
        rw [replaceTags_append_of_clear hclear,
          replaceTags_append_of_not_mem (hbracket htrail rfl)]
    _ = (replaceTags remapped text.trim).trim := Text.trim_append_of_blank hlead htrail
    _ = replaceTags remapped text.trim := htrimmed

/-- What a replacement writes hangs on what the map gives for each key, not on the order of its
entries. -/
theorem replaceTags_congr {other : Messages} (hr : ∀ key ∈ remapped.keys, ']' ∉ key)
    (h : ∀ key, other.get? key = remapped.get? key) (text : Text) :
    replaceTags other text = replaceTags remapped text := by
  have hkeys (key : Text) : key ∈ other.keys ↔ key ∈ remapped.keys := by
    rw [← not_iff_not, ← OrderedMap.get?_eq_none_iff, ← OrderedMap.get?_eq_none_iff, h]
  induction text using @replaceTags_induction remapped with
  | nil => rw [replaceTags_nil, replaceTags_nil]
  | copy c text hl ih =>
    have hother : leading? other (c :: text) = none := by
      rw [leading?_eq_none_iff] at hl ⊢
      exact fun key hk => hl key ((hkeys key).mp hk)
    rw [replaceTags_cons hother, replaceTags_cons hl, ih]
  | rewrite old new rest hl ih =>
    obtain ⟨hm, -⟩ := mem_of_leading? hl
    have hold := hr old (OrderedMap.mem_keys_of_get? hm)
    have hother : leading? other (tag old ++ rest) = some (old, new) := by
      cases hc : leading? other (tag old ++ rest) with
      | none =>
        refine absurd (List.prefix_append _ rest) (leading?_eq_none_iff.mp hc old ?_)
        exact (hkeys old).mpr (OrderedMap.mem_keys_of_get? hm)
      | some entry =>
        obtain ⟨found, given⟩ := entry
        obtain ⟨hf, ht⟩ := mem_of_leading? hc
        have hfound := hr found ((hkeys found).mp (OrderedMap.mem_keys_of_get? hf))
        -- both tags end at the first bracket
        obtain rfl : found = old := (tag_begins_tag_iff hold hfound).mp
          ((tag_begins_append_iff hfound (closed_tag old) (tag_ne_nil old)).mp ht)
        rw [h, hm] at hf
        rw [Option.some.inj hf]
    rw [replaceTags_of_leading? hother, replaceTags_of_leading? hl, ih]

namespace Unbracketed

theorem of_get? (h : Unbracketed remapped) {old new : Text} (hg : remapped.get? old = some new) :
    ('[' ∉ old ∧ ']' ∉ old) ∧ '[' ∉ new ∧ ']' ∉ new :=
  h (old, new) (OrderedMap.get?_eq_some_iff.mp hg)

theorem of_mem_keys (h : Unbracketed remapped) (hk : key ∈ remapped.keys) :
    '[' ∉ key ∧ ']' ∉ key := by
  obtain ⟨new, hn⟩ := OrderedMap.get?_of_mem_keys hk
  exact (h.of_get? hn).1

theorem sound (h : Unbracketed remapped) : SoundRenaming remapped where
  old hg := (h.of_get? hg).1.2
  new hg := (h.of_get? hg).2.2
  stop hg := not_endMark_infix_tag (h.of_get? hg).2.1

theorem inStep (h : Unbracketed remapped) {part : Part} (hw : part.WellFormed)
    (hk : '[' ∉ part.key) : part.InStep remapped where
  key := by
    refine replaceTags_tag hw.key (fun key hm => (h.of_mem_keys hm).2) (.inr fun other _ hs => hk ?_)
    exact hs.subset (List.mem_append_left _ (by decide))
  stop := replaceTags_append_endMark fun _ hm => not_tag_suffix_endMark (h.of_mem_keys hm).1

/-- Reading and replacing change places. -/
theorem ofText_replaceTags (h : Unbracketed remapped) {document : Text}
    (hk : ∀ part ∈ (Layout.ofText document).parts, '[' ∉ part.key) :
    Layout.ofText (replaceTags remapped document) =
      ⟨(Layout.ofText document).parts.map (Part.replaced remapped),
        replaceTags remapped (Layout.ofText document).tail⟩ := by
  have hstep : ∀ part ∈ (Layout.ofText document).parts, part.InStep remapped := fun part hp =>
    h.inStep ((Layout.wellFormed_ofText document).parts part hp) (hk part hp)
  rw [Markup.ofText_replaceTags h.sound fun part hp => (hstep part hp).stop,
    List.map_congr_left fun part hp => (hstep part hp).rewritten_eq]

end Unbracketed

/-- Replacing tags is a substitution of all keys at once that commutes with reading the spans. With no
`[` in the keys of the spans and no bracket in those of the map, the new document has the old spans
in their order: each key is looked up in the map once, the tags in each text are replaced, and the
plain text in front of it stays. What follows the last span finishes no marker, before and after. The
order of the map's entries has no say. -/
theorem spans_replaceTags (remapped : Messages) (document : Text) (hm : Unbracketed remapped)
    (hk : ∀ span ∈ spans document, '[' ∉ span.key) :
    let replaced := replaceTags remapped document
    (spans replaced).map (fun span => (span.key, span.text)) =
      (spans document).map (fun span =>
        ((remapped.get? span.key).getD span.key, replaceTags remapped span.text)) ∧
    (Layout.ofText replaced).parts.map Part.before =
      (Layout.ofText document).parts.map Part.before ∧
    (Layout.ofText replaced).tail = replaceTags remapped (Layout.ofText document).tail ∧
    ∀ other : Messages, (∀ key, other.get? key = remapped.get? key) →
      replaceTags other document = replaced := by
  intro replaced
  have hkeys : ∀ part ∈ (Layout.ofText document).parts, '[' ∉ part.key := by
    have hall : ∀ key ∈ (spans document).map Span.key, '[' ∉ key := List.forall_mem_map.mpr hk
    rw [map_key_spans] at hall
    exact fun part hp => hall part.key (List.mem_map_of_mem hp)
  have hlayout := hm.ofText_replaceTags hkeys
  have hentry (part : Part) : (part.replaced remapped).entry =
      ((remapped.get? part.entry.1).getD part.entry.1, replaceTags remapped part.entry.2) :=
    congrArg (Prod.mk _) (trim_replaceTags remapped part.body)
  refine ⟨?_, ?_, ?_, fun other ho => ?_⟩
  · have hold := congrArg (List.map fun entry : Text × Text =>
      ((remapped.get? entry.1).getD entry.1, replaceTags remapped entry.2)) (map_entry_spans document)
    rw [List.map_map, List.map_map] at hold
    rw [map_entry_spans, hlayout, List.map_map]
    exact (List.map_congr_left fun part _ => hentry part).trans hold.symm
  · rw [hlayout, List.map_map]
    rfl
  · rw [hlayout]
  · exact replaceTags_congr (fun key hk => (hm.of_mem_keys hk).2) ho document

/-- Two keys change their names, one of them is the beginning of a third, and a tag stands in a text. -/
theorem spans_replaceTags_swapped :
    let remapped : Messages := .ofList [("a".toList, "b".toList), ("b".toList, "a".toList),
      ("ab".toList, "c".toList)]
    let document := "[msg:a] x [msg:b] [/msg]-[msg:ab]y[/msg][msg:d]z[/msg][msg:a]".toList
    Unbracketed remapped ∧ (∀ span ∈ spans document, '[' ∉ span.key) ∧
      (spans (replaceTags remapped document)).map (fun span => (span.key, span.text)) =
        [("b".toList, "x [msg:a]".toList), ("c".toList, "y".toList), ("d".toList, "z".toList)] ∧
      (Layout.ofText (replaceTags remapped document)).tail = "[msg:b]".toList := by
  intro remapped document
  have hm : Unbracketed remapped := by decide +kernel
  have hk : ∀ span ∈ spans document, '[' ∉ span.key := by decide +kernel
  obtain ⟨hspans, -, htail, -⟩ := spans_replaceTags remapped document hm hk
  exact ⟨hm, hk, hspans.trans (by decide +kernel), htail.trans (by decide +kernel)⟩

end MessageKeys.Markup
