import Mathlib.Data.List.Find
import MessageKeys.Markup.Consolidation
import MessageKeys.Proofs.OrderedMap
import MessageKeys.Proofs.Markup.Retagging

/-!
# Replacing the tags of a document

A replacement goes over the pieces of a document one by one, as none of its tags reaches over a
closing bracket. So the new document has the old parts with their new keys as long as the
replacement is in step with them: each opening tag gets the key that the map gives, and no end mark
is taken for the end of a tag.
-/
namespace MessageKeys.Markup

open Text (Clear)

variable {remapped : Messages} {text rest key before body : Text}

theorem leading?_eq_none_iff :
    leading? remapped text = none ↔ ∀ key ∈ remapped.keys, ¬ tag key <+: text := by
  rw [leading?_eq, List.find?_eq_none]
  simp only [List.isPrefixOf_iff_prefix]
  constructor
  · intro h key hk
    obtain ⟨new, hn⟩ := OrderedMap.mem_keys.mp hk
    exact h _ hn
  · intro h entry he
    exact h _ (List.mem_map_of_mem he)

theorem mem_of_leading? {old new : Text} (h : leading? remapped text = some (old, new)) :
    remapped.get? old = some new ∧ tag old <+: text := by
  rw [leading?_eq] at h
  exact ⟨OrderedMap.get?_eq_some_iff.mpr (List.mem_of_find?_eq_some h),
    List.isPrefixOf_iff_prefix.mp (by simpa using List.find?_some h)⟩

theorem leading?_congr {other : Text} (h : ∀ key ∈ remapped.keys, tag key <+: text ↔ tag key <+: other) :
    leading? remapped text = leading? remapped other := by
  rw [leading?_eq, leading?_eq]
  refine List.find?_congr fun entry he => ?_
  rw [Bool.eq_iff_iff, List.isPrefixOf_iff_prefix, List.isPrefixOf_iff_prefix]
  exact h _ (List.mem_map_of_mem he)

@[simp] theorem replaceTags_nil : replaceTags remapped [] = [] := by
  rw [replaceTags]

theorem replaceTags_of_leading? {old new : Text}
    (h : leading? remapped (tag old ++ rest) = some (old, new)) :
    replaceTags remapped (tag old ++ rest) = tag new ++ replaceTags remapped rest := by
  obtain ⟨c, more, hc⟩ := List.exists_cons_of_ne_nil (tag_ne_nil old)
  rw [hc, List.cons_append] at h ⊢
  rw [replaceTags, h]
  simp [hc]

theorem replaceTags_cons {c : Char} (h : leading? remapped (c :: text) = none) :
    replaceTags remapped (c :: text) = c :: replaceTags remapped text := by
  rw [replaceTags, h]

/-- How a replacement reads a text: it copies a character or rewrites a tag. -/
theorem replaceTags_induction {motive : Text → Prop} (nil : motive [])
    (copy : ∀ c text, leading? remapped (c :: text) = none → motive text → motive (c :: text))
    (rewrite : ∀ old new rest, leading? remapped (tag old ++ rest) = some (old, new) →
      motive rest → motive (tag old ++ rest)) (text : Text) : motive text := by
  induction text using replaceTags.induct remapped with
  | case1 => exact nil
  | case2 c text old new h ih =>
    obtain ⟨rest, hr⟩ := (mem_of_leading? h).2
    obtain ⟨d, more, hd⟩ := List.exists_cons_of_ne_nil (tag_ne_nil old)
    rw [← hr] at h ⊢
    have ht : text = more ++ rest := by simpa [hd] using (congrArg List.tail hr).symm
    refine rewrite old new rest h ?_
    simpa [ht, hd] using ih
  | case3 c text h ih => exact copy c text h ih

theorem retagged_replaceTags (remapped : Messages) (text : Text) :
    Retagged (fun old new => remapped.get? old = some new) text (replaceTags remapped text) := by
  induction text using @replaceTags_induction remapped with
  | nil => exact replaceTags_nil.symm ▸ .nil
  | copy c text h ih =>
    rw [replaceTags_cons h]
    exact .copy c ih
  | rewrite old new rest h ih =>
    rw [replaceTags_of_leading? h]
    exact .tag (mem_of_leading? h).1 ih

/-- The keys of the map hold no bracket, nor do the new ones, whose tags hold no end mark. -/
abbrev SoundRenaming (remapped : Messages) : Prop :=
  Retagged.Sound fun old new => remapped.get? old = some new

theorem Retagged.Sound.bracket_not_mem_keys (hs : SoundRenaming remapped) :
    ∀ key ∈ remapped.keys, ']' ∉ key := by
  intro key hk
  obtain ⟨new, hn⟩ := OrderedMap.get?_of_mem_keys hk
  exact hs.old hn

theorem replaceTags_append_of_clear (h : Clear openMark text rest) :
    replaceTags remapped (text ++ rest) = text ++ replaceTags remapped rest := by
  induction text with
  | nil => rfl
  | cons c text ih =>
    obtain ⟨hc, ht⟩ := Text.clear_cons.mp h
    have hn : leading? remapped (c :: (text ++ rest)) = none :=
      leading?_eq_none_iff.mpr fun key _ hp => hc ((openMark_prefix_tag key).trans hp)
    rw [List.cons_append, replaceTags_cons hn, ih ht, List.cons_append]

theorem replaceTags_eq_self (h : ∀ key ∈ remapped.keys, ¬ tag key <:+: text) :
    replaceTags remapped text = text := by
  induction text with
  | nil => exact replaceTags_nil
  | cons c text ih =>
    have hn : leading? remapped (c :: text) = none :=
      leading?_eq_none_iff.mpr fun key hk hp => h key hk hp.isInfix
    rw [replaceTags_cons hn, ih fun key hk hi => h key hk (List.infix_cons hi)]

/-- A tag that begins with a closed text and goes on after it would hold a second bracket. -/
theorem tag_begins_append_iff (hk : ']' ∉ key) (hc : Closed text) (hne : text ≠ []) :
    tag key <+: text ++ rest ↔ tag key <+: text := by
  refine ⟨fun ⟨more, hm⟩ => ?_, fun h => h.trans (List.prefix_append text rest)⟩
  rcases List.append_eq_append_iff.mp hm with ⟨inner, rfl, _⟩ | ⟨ahead, he, _⟩
  · exact List.prefix_append _ inner
  · by_cases hn : ahead = []
    · simp [he, hn]
    · have hd := congrArg List.dropLast he
      rw [dropLast_tag, List.dropLast_append_of_ne_nil hn] at hd
      have hl : text.getLast hne ∈ openMark ++ key :=
        hd ▸ List.mem_append_left _ (List.getLast_mem hne)
      rw [hc _ (List.getLast?_eq_some_getLast hne)] at hl
      simp [hk, bracket_not_mem_openMark] at hl

/-- A text that ends with a bracket is rewritten by itself, whatever follows it. -/
theorem replaceTags_append_of_closed (hk : ∀ key ∈ remapped.keys, ']' ∉ key) (hc : Closed text) :
    replaceTags remapped (text ++ rest) =
      replaceTags remapped text ++ replaceTags remapped rest := by
  induction text using @replaceTags_induction remapped with
  | nil => simp
  | copy c text h ih =>
    have hn : leading? remapped (c :: (text ++ rest)) = none := by
      rw [← h, ← List.cons_append]
      exact leading?_congr fun key hm => tag_begins_append_iff (hk key hm) hc (by simp)
    rw [List.cons_append, replaceTags_cons hn, replaceTags_cons h, ih hc.of_cons, List.cons_append]
  | rewrite old new more h ih =>
    have hs : leading? remapped (tag old ++ (more ++ rest)) = some (old, new) := by
      rw [← h, ← List.append_assoc]
      exact leading?_congr fun key hm => tag_begins_append_iff (hk key hm) hc (by simp [tag_ne_nil])
    rw [List.append_assoc, replaceTags_of_leading? hs, replaceTags_of_leading? h,
      ih (hc.of_suffix (List.suffix_append _ _)), List.append_assoc]

theorem tag_begins_tag_iff {other : Text} (hk : ']' ∉ key) (ho : ']' ∉ other) :
    tag other <+: tag key ↔ other = key := by
  constructor
  · rintro ⟨more, hm⟩
    have he : other ++ ']' :: more = key ++ [']'] := by simpa [tag, closeBracket] using hm
    have hc := congrArg (fun text : Text => text.takeWhile (· ≠ ']')) he
    have stops : ∀ word more : Text, ']' ∉ word →
        (word ++ ']' :: more).takeWhile (· ≠ ']') = word := by
      intro word more hw
      rw [List.takeWhile_append_of_pos, List.takeWhile_cons_of_neg (by simp), List.append_nil]
      intro c hc
      exact decide_eq_true fun e => hw (e ▸ hc)
    rwa [stops other more ho, stops key [] hk] at hc
  · rintro rfl
    exact List.prefix_refl _

/-- The opening tag of `key` ends like that of `inner`. -/
def Bears (inner key : Text) : Prop :=
  openMark ++ inner <:+ openMark ++ key

instance (inner key : Text) : Decidable (Bears inner key) :=
  inferInstanceAs (Decidable (openMark ++ inner <:+ openMark ++ key))

theorem Bears.refl (key : Text) : Bears key key :=
  List.suffix_refl _

/-- An opening mark does not begin within an opening mark. -/
theorem bears_iff {inner : Text} : Bears inner key ↔ inner = key ∨ openMark ++ inner <:+ key := by
  constructor
  · rintro ⟨a, he⟩
    rcases List.append_eq_append_iff.mp he with ⟨extra, ho, hr⟩ | ⟨extra, rfl, rfl⟩
    · cases a with
      | nil => exact .inl (List.append_cancel_left he)
      | cons c a =>
        cases extra with
        | nil =>
          rw [List.nil_append] at hr
          exact .inr ⟨[], hr⟩
        | cons d extra =>
          have hbr : '[' = d := Option.some.inj (congrArg List.head? hr)
          have hm : '[' ∈ openMark.tail := by
            rw [ho, hbr]
            simp
          exact absurd hm (by decide)
    · exact .inr ⟨extra, rfl⟩
  · rintro (rfl | hs)
    · exact .refl inner
    · exact hs.trans (List.suffix_append _ _)

/-- A tag within a tag is at its end. -/
theorem tag_infix_tag {other : Text} (hk : ']' ∉ key) (h : tag other <:+: tag key) :
    other = key ∨ openMark ++ other <:+ key := by
  obtain ⟨a, b, he⟩ := h
  have hb : b = [] := by
    apply Classical.byContradiction
    intro hb
    have hd := congrArg List.dropLast he
    rw [List.dropLast_append_of_ne_nil hb, dropLast_tag] at hd
    have hm : ']' ∈ openMark ++ key := by
      rw [← hd]
      simp [tag, closeBracket]
    simp [hk, bracket_not_mem_openMark] at hm
  subst hb
  have hd := congrArg List.dropLast he
  rw [List.append_nil, List.dropLast_append_of_ne_nil (tag_ne_nil other), dropLast_tag,
    dropLast_tag] at hd
  exact bears_iff.mp ⟨a, hd⟩

/-- The key that the map gives; a key it does not have is kept. -/
def renamed (remapped : Messages) (key : Text) : Text :=
  (remapped.get? key).getD key

theorem bracket_not_mem_renamed (hs : SoundRenaming remapped) (hk : ']' ∉ key) :
    ']' ∉ renamed remapped key := by
  unfold renamed
  cases hg : remapped.get? key with
  | none => exact hk
  | some new => exact hs.new hg

/-- The key that stands in an opening tag once its document has the tags replaced. -/
def rewrittenKey (remapped : Messages) (key : Text) : Text :=
  ((replaceTags remapped (tag key)).drop openMark.length).dropLast

theorem rewrittenKey_of_replaceTags {new : Text} (h : replaceTags remapped (tag key) = tag new) :
    rewrittenKey remapped key = new := by
  rw [rewrittenKey, h]
  simp [tag, closeBracket]

theorem replaceTags_openMark (h : leading? remapped (openMark ++ text) = none) :
    replaceTags remapped (openMark ++ text) = openMark ++ replaceTags remapped text := by
  have hclear : Clear openMark "msg:".toList text := Text.clear_of_head_not_mem rfl (by decide)
  have hrest := @replaceTags_append_of_clear remapped _ _ hclear
  have he : openMark ++ text = '[' :: ("msg:".toList ++ text) := rfl
  rw [he] at h
  rw [he, replaceTags_cons h, hrest]
  rfl

/-- The closing bracket of a tag stays, and no other comes to stand in front of it. -/
theorem replaceTags_append_closeBracket (hs : SoundRenaming remapped) (hk : ']' ∉ key) :
    ∃ new, ']' ∉ new ∧ replaceTags remapped (key ++ closeBracket) = new ++ closeBracket := by
  have hret := retagged_replaceTags remapped (key ++ closeBracket)
  have hcount : (replaceTags remapped (key ++ closeBracket)).count ']' = 1 := by
    rw [hret.count_bracket hs, List.count_append, List.count_eq_zero.mpr hk]
    rfl
  have hclosed := hret.closed (by simp [Closed, closeBracket])
  rcases List.eq_nil_or_concat (replaceTags remapped (key ++ closeBracket)) with hn | ⟨new, c, hc⟩
  · rw [hn] at hcount
    cases hcount
  · rw [hc, List.concat_eq_append] at hcount hclosed ⊢
    obtain rfl : c = ']' := hclosed c (by simp)
    refine ⟨new, List.count_eq_zero.mp ?_, rfl⟩
    rw [List.count_append, List.count_singleton_self] at hcount
    omega

/-- An opening tag stays an opening tag. -/
theorem replaceTags_tag_eq (hs : SoundRenaming remapped) (hk : ']' ∉ key) :
    ']' ∉ rewrittenKey remapped key ∧
      replaceTags remapped (tag key) = tag (rewrittenKey remapped key) := by
  suffices h : ∃ new, ']' ∉ new ∧ replaceTags remapped (tag key) = tag new by
    obtain ⟨new, hn, he⟩ := h
    rw [rewrittenKey_of_replaceTags he]
    exact ⟨hn, he⟩
  cases hl : leading? remapped (tag key) with
  | some entry =>
    obtain ⟨old, new⟩ := entry
    obtain ⟨hm, ht⟩ := mem_of_leading? hl
    obtain rfl := (tag_begins_tag_iff hk (hs.old hm)).mp ht
    have he := @replaceTags_of_leading? remapped [] old new (by rwa [List.append_nil])
    rw [List.append_nil, replaceTags_nil, List.append_nil] at he
    exact ⟨new, hs.new hm, he⟩
  | none =>
    obtain ⟨new, hn, he⟩ := replaceTags_append_closeBracket hs hk
    rw [tag, List.append_assoc] at hl ⊢
    exact ⟨new, hn, by rw [replaceTags_openMark hl, he, tag, List.append_assoc]⟩

/-- The part with the tags in it replaced. -/
def Part.rewritten (remapped : Messages) (part : Part) : Part where
  before := part.before
  key := rewrittenKey remapped part.key
  body := replaceTags remapped part.body

/-- The part with its key renamed and the tags in its body replaced. -/
def Part.replaced (remapped : Messages) (part : Part) : Part where
  before := part.before
  key := renamed remapped part.key
  body := replaceTags remapped part.body

/-- The replacement leaves the end mark of the part where it is. -/
abbrev Part.KeepsEnd (remapped : Messages) (part : Part) : Prop :=
  replaceTags remapped (part.body ++ endMark) = replaceTags remapped part.body ++ endMark

/-- The replacement gives the opening tag of the part the key of the map and leaves the end mark. -/
structure Part.InStep (remapped : Messages) (part : Part) : Prop where
  key : replaceTags remapped (tag part.key) = tag (renamed remapped part.key)
  stop : part.KeepsEnd remapped

instance (remapped : Messages) (part : Part) : Decidable (part.InStep remapped) :=
  decidable_of_iff (replaceTags remapped (tag part.key) = tag (renamed remapped part.key) ∧
      part.KeepsEnd remapped)
    ⟨fun h => ⟨h.1, h.2⟩, fun h => ⟨h.key, h.stop⟩⟩

theorem Part.InStep.rewritten_eq {part : Part} (h : part.InStep remapped) :
    part.rewritten remapped = part.replaced remapped := by
  rw [Part.rewritten, rewrittenKey_of_replaceTags h.key, Part.replaced]

theorem replaceTags_tag (hk : ']' ∉ key) (hr : ∀ key ∈ remapped.keys, ']' ∉ key)
    (h : key ∈ remapped.keys ∨ ∀ other ∈ remapped.keys, ¬ openMark ++ other <:+ key) :
    replaceTags remapped (tag key) = tag (renamed remapped key) := by
  cases hg : remapped.get? key with
  | none =>
    have hn := OrderedMap.get?_eq_none_iff.mp hg
    rw [renamed, hg, Option.getD_none]
    refine replaceTags_eq_self fun other ho hi => ?_
    rcases tag_infix_tag hk hi with rfl | hs
    · exact hn ho
    · exact (h.resolve_left hn) other ho hs
  | some new =>
    have hl : leading? remapped (tag key ++ []) = some (key, new) := by
      cases hc : leading? remapped (tag key ++ []) with
      | none =>
        have := leading?_eq_none_iff.mp hc key (OrderedMap.mem_keys_of_get? hg)
        simp at this
      | some entry =>
        obtain ⟨old, other⟩ := entry
        obtain ⟨hm, ht⟩ := mem_of_leading? hc
        rw [List.append_nil] at ht
        obtain rfl := (tag_begins_tag_iff hk (hr old (OrderedMap.mem_keys_of_get? hm))).mp ht
        obtain rfl : other = new := by simpa [hg] using hm.symm
        rfl
    have := replaceTags_of_leading? hl
    simpa [renamed, hg] using this

/-- A tag that begins in a text and reaches into an end mark after it takes all of it. -/
theorem tag_begins_append_endMark (h : tag key <+: text ++ endMark) :
    tag key <+: text ∨ tag key = text ++ endMark := by
  obtain ⟨more, hm⟩ := h
  rcases List.append_eq_append_iff.mp hm with ⟨inner, rfl, _⟩ | ⟨ahead, he, ha⟩
  · exact .inl (List.prefix_append _ inner)
  · by_cases hn : ahead = []
    · exact .inl (by simp [he, hn])
    · right
      have hlast : ahead.getLast hn = ']' := by
        have hl := congrArg List.getLast? he
        rw [List.getLast?_append, List.getLast?_eq_some_getLast hn, Option.some_or] at hl
        simpa [tag, closeBracket] using hl.symm
      -- the only bracket of an end mark is its last character
      have hmore : more = [] := by
        apply Classical.byContradiction
        intro hne
        have hd := congrArg List.dropLast ha
        rw [List.dropLast_append_of_ne_nil hne] at hd
        have hb : ']' ∈ endMark.dropLast :=
          hd ▸ List.mem_append_left _ (hlast ▸ List.getLast_mem hn)
        exact bracket_not_mem_dropLast_endMark hb
      rw [he, ha, hmore, List.append_nil]

theorem replaceTags_append_endMark
    (h : ∀ key ∈ remapped.keys, ¬ tag key <:+ body ++ endMark) :
    replaceTags remapped (body ++ endMark) = replaceTags remapped body ++ endMark := by
  induction body using @replaceTags_induction remapped with
  | nil =>
    rw [List.nil_append, replaceTags_nil, List.nil_append]
    refine replaceTags_eq_self fun key _ hi => ?_
    exact absurd ((openMark_prefix_tag key).isInfix.trans hi) (by decide)
  | copy c body hc ih =>
    have hn : leading? remapped (c :: (body ++ endMark)) = none := by
      refine leading?_eq_none_iff.mpr fun key hk hp => ?_
      rw [← List.cons_append] at hp
      rcases tag_begins_append_endMark hp with hp | he
      · exact leading?_eq_none_iff.mp hc key hk hp
      · exact h key hk (he ▸ List.suffix_refl _)
    rw [List.cons_append, replaceTags_cons hn, replaceTags_cons hc, List.cons_append, ih]
    exact fun key hk hs => h key hk (hs.trans (List.suffix_cons c _))
  | rewrite old new rest hl ih =>
    have hs : leading? remapped (tag old ++ (rest ++ endMark)) = some (old, new) := by
      rw [← hl]
      refine leading?_congr fun key hk => ⟨fun hp => ?_, fun hp => ?_⟩
      · rw [← List.append_assoc] at hp
        rcases tag_begins_append_endMark hp with hp | he
        · exact hp
        · exact absurd (he ▸ List.suffix_refl _) (h key hk)
      · rw [← List.append_assoc]
        exact hp.trans (List.prefix_append _ _)
    rw [List.append_assoc, replaceTags_of_leading? hs, replaceTags_of_leading? hl, ih,
      List.append_assoc]
    intro key hk hsuf
    exact h key hk (hsuf.trans (by rw [List.append_assoc]; exact List.suffix_append _ _))

/-- The tag of the key stands in the part, if at all, as its opening tag. -/
structure Part.Avoids (unwanted : Text) (part : Part) : Prop where
  key : ¬ openMark ++ unwanted <:+ part.key
  body : ¬ tag unwanted <:+: part.body ++ endMark

instance (key : Text) (part : Part) : Decidable (part.Avoids key) :=
  decidable_of_iff (¬ openMark ++ key <:+ part.key ∧ ¬ tag key <:+: part.body ++ endMark)
    ⟨fun h => ⟨h.1, h.2⟩, fun h => ⟨h.key, h.body⟩⟩

theorem Part.Avoids.inStep {part : Part} (h : ∀ key ∈ remapped.keys, part.Avoids key)
    (hk : ']' ∉ part.key) (hr : ∀ key ∈ remapped.keys, ']' ∉ key) : part.InStep remapped := by
  constructor
  · exact replaceTags_tag hk hr (.inr fun other ho => (h other ho).key)
  · exact replaceTags_append_endMark fun key hm hs => (h key hm).body hs.isInfix

theorem Part.Avoids.replaceTags_body {part : Part} (h : ∀ key ∈ remapped.keys, part.Avoids key) :
    replaceTags remapped part.body = part.body := by
  refine replaceTags_eq_self fun key hm hi => (h key hm).body ?_
  exact hi.trans (List.prefix_append _ _).isInfix

section layout

variable {layout : Layout}

theorem replaceTags_toText (hw : layout.WellFormed) (hr : ∀ key ∈ remapped.keys, ']' ∉ key) :
    replaceTags remapped layout.toText =
      (layout.parts.flatMap fun part => part.before ++ (replaceTags remapped (tag part.key) ++
        replaceTags remapped (part.body ++ endMark))) ++ replaceTags remapped layout.tail := by
  obtain ⟨parts, tail⟩ := layout
  induction parts with
  | nil => simp [Layout.toText]
  | cons part parts ih =>
    have hp := hw.parts part (by simp)
    have hrest := ih ⟨fun other ho => hw.parts other (List.mem_cons_of_mem part ho), hw.tail⟩
    rw [Layout.toText_cons, replaceTags_append_of_clear (clear_before hp.before),
      replaceTags_append_of_closed hr (closed_tag part.key),
      replaceTags_append_of_closed hr (closed_append_endMark part.body), hrest]
    simp

/-- Where the end marks stay, the replacement goes part by part. -/
theorem ofText_replaceTags (hs : SoundRenaming remapped) {document : Text}
    (h : ∀ part ∈ (Layout.ofText document).parts, part.KeepsEnd remapped) :
    Layout.ofText (replaceTags remapped document) =
      ⟨(Layout.ofText document).parts.map (Part.rewritten remapped),
        replaceTags remapped (Layout.ofText document).tail⟩ := by
  have hw := Layout.wellFormed_ofText document
  refine Layout.ofText_eq_iff.mpr ⟨⟨?_, ?_⟩, ?_⟩
  · intro other ho
    obtain ⟨part, hp, rfl⟩ := List.mem_map.mp ho
    have hpart := hw.parts part hp
    refine ⟨hpart.before, (replaceTags_tag_eq hs hpart.key).1, fun he => hpart.body ?_⟩
    exact (retagged_replaceTags remapped part.body).endMark_infix_before hs he
  · exact fun hf => hw.tail ((retagged_replaceTags remapped _).finished hs hf)
  · conv => rhs; rw [← Layout.toText_ofText document]
    rw [replaceTags_toText hw hs.bracket_not_mem_keys, Layout.toText, List.flatMap_map]
    refine congrArg (· ++ _) ?_
    rw [List.flatMap_def, List.flatMap_def]
    refine congrArg _ (List.map_congr_left fun part hp => ?_)
    rw [(replaceTags_tag_eq hs (hw.parts part hp).key).2, h part hp]
    simp [Part.toText, Part.marker, Part.rewritten]

theorem replaceTags_closed (hs : SoundRenaming remapped) {a b more : Text} (ha : Closed a)
    (hb : Closed b) (hn : a.count ']' = b.count ']')
    (h : replaceTags remapped a ++ rest = b ++ more) :
    replaceTags remapped a = b ∧ rest = more := by
  have hret := retagged_replaceTags remapped a
  exact (hret.closed ha).eq_of_append_eq hb ((hret.count_bracket hs).trans hn) h

/-- A replacement that gives each part its new key and its new body, one after the other, is in
step with them. -/
theorem inStep_of_replaceTags_toText (hs : SoundRenaming remapped) (hw : layout.WellFormed)
    {tail : Text} (h : replaceTags remapped layout.toText =
      Layout.toText ⟨layout.parts.map (Part.replaced remapped), tail⟩) :
    ∀ part ∈ layout.parts, part.InStep remapped := by
  rw [replaceTags_toText hw hs.bracket_not_mem_keys] at h
  obtain ⟨parts, last⟩ := layout
  induction parts with
  | nil => simp
  | cons part parts ih =>
    have hp := hw.parts part (by simp)
    simp only [List.flatMap_cons, List.map_cons, Layout.toText, Part.toText, Part.marker,
      Part.replaced, List.append_assoc] at h
    -- the brackets of a piece tell where its replacement ends
    obtain ⟨htag, h⟩ := replaceTags_closed hs (closed_tag part.key) (closed_tag _)
      (by rw [count_bracket_tag hp.key, count_bracket_tag (bracket_not_mem_renamed hs hp.key)])
      (List.append_cancel_left h)
    have hbody := (retagged_replaceTags remapped part.body).count_bracket hs
    obtain ⟨hstop, h⟩ := replaceTags_closed hs (closed_append_endMark part.body)
      (closed_append_endMark (replaceTags remapped part.body))
      (by rw [List.count_append, List.count_append, hbody])
      (by rw [List.append_assoc]; exact h)
    intro other ho
    rcases List.mem_cons.mp ho with rfl | ho
    · exact ⟨htag, hstop⟩
    · refine ih ⟨fun other ho => hw.parts other (List.mem_cons_of_mem part ho), hw.tail⟩ ?_ other ho
      simpa [Layout.toText, Part.toText, Part.marker, Part.replaced] using h

/-- The parts of the new document are the old ones replaced exactly if the replacement is in step
with each of them. -/
theorem parts_replaceTags_iff (hs : SoundRenaming remapped) (document : Text) :
    (Layout.ofText (replaceTags remapped document)).parts =
        (Layout.ofText document).parts.map (Part.replaced remapped) ↔
      ∀ part ∈ (Layout.ofText document).parts, part.InStep remapped := by
  constructor
  · intro h
    have ht : replaceTags remapped (Layout.ofText document).toText =
        Layout.toText ⟨(Layout.ofText document).parts.map (Part.replaced remapped),
          (Layout.ofText (replaceTags remapped document)).tail⟩ := by
      rw [← h, Layout.toText_ofText, Layout.toText_ofText]
    exact inStep_of_replaceTags_toText hs (Layout.wellFormed_ofText document) ht
  · intro h
    rw [ofText_replaceTags hs fun part hp => (h part hp).stop]
    exact List.map_congr_left fun part hp => (h part hp).rewritten_eq

end layout

end MessageKeys.Markup
