import Mathlib.Data.List.Forall2
import Mathlib.Data.List.Nodup
import MessageKeys.Proofs.Markup.Numbering

/-!
# Which keys a numbering gives

The keys are numbered one after the other. A name that is made for a tag is new, and no name is made
twice. So the keys that were numbered are exchanged for ones that differ from each other and from all
keys without an opening mark. In a longer key the name that is made is only the end of the key, and
the whole of it may be a key already.
-/
namespace MessageKeys.Markup

variable {key : Text} {start : Nat} {keys given taken later before after : List Text}

theorem forall₂_comp {α β γ : Type} {R : α → β → Prop} {S : β → γ → Prop} {T : α → γ → Prop}
    (h : ∀ a b c, R a b → S b c → T a c) {xs : List α} {ys : List β} {zs : List γ}
    (hr : List.Forall₂ R xs ys) (hs : List.Forall₂ S ys zs) : List.Forall₂ T xs zs := by
  induction hr generalizing zs with
  | nil =>
    cases hs
    exact .nil
  | cons hab _ ih =>
    cases hs with
    | cons hbc hs => exact .cons (h _ _ _ hab hbc) (ih hs)

theorem forall₂_and {α β : Type} {R S : α → β → Prop} {xs : List α} {ys : List β}
    (hr : List.Forall₂ R xs ys) (hs : List.Forall₂ S xs ys) :
    List.Forall₂ (fun x y => y ∈ ys ∧ R x y ∧ S x y) xs ys := by
  induction hr with
  | nil => exact .nil
  | cons hxy _ ih =>
    cases hs with
    | cons hxy' hs =>
      refine .cons ⟨List.mem_cons_self, hxy, hxy'⟩ ((ih hs).imp fun x y h => ?_)
      exact ⟨List.mem_cons_of_mem _ h.1, h.2⟩

theorem count_le_of_forall₂ {α : Type} [BEq α] [LawfulBEq α] {a : α} {R : α → α → Prop}
    {xs ys : List α} (h : List.Forall₂ R xs ys) (hr : ∀ y, R a y → y = a) : xs.count a ≤ ys.count a := by
  induction h with
  | nil => exact Nat.le_refl _
  | @cons x y xs ys hxy _ ih =>
    by_cases hx : x = a
    · subst hx
      obtain rfl := hr y hxy
      rw [List.count_cons_self, List.count_cons_self]
      omega
    · rw [List.count_cons_of_ne hx]
      exact ih.trans (List.count_le_count_cons ..)

/-- A key without an opening mark. -/
abbrev Plain (key : Text) : Prop :=
  ¬ openMark <:+: key

theorem Bears.eq_of_plain {inner : Text} (h : Bears inner key) (hk : Plain key) : inner = key :=
  (bears_iff.mp h).resolve_right fun hs => hk ((List.prefix_append _ _).isInfix.trans hs.isInfix)

/-- A key ends like the tag of one plain key only. -/
theorem Bears.unique {a b : Text} (ha : Bears a key) (hb : Bears b key) (hpa : Plain a)
    (hpb : Plain b) : a = b := by
  rcases List.suffix_or_suffix_of_suffix ha hb with h | h
  · exact Bears.eq_of_plain h hpb
  · exact (Bears.eq_of_plain h hpa).symm

theorem Bears.numbered {inner : Text} (h : Bears inner key) (index : Nat) :
    Bears (numbered inner index) (numbered key index) := by
  obtain ⟨front, hf⟩ := h
  refine ⟨front, ?_⟩
  simp only [Markup.numbered, ← List.append_assoc, ← hf]

theorem plain_numbered (index : Nat) : Plain (numbered key index) ↔ Plain key := by
  refine ⟨fun h hi => h (hi.trans (List.prefix_append _ _).isInfix), fun h => ?_⟩
  exact (derived_numbered key index).openMark h

/-- The number is what follows the last underscore. -/
theorem takeWhile_numbered (key : Text) (index : Nat) :
    (numbered key index).reverse.takeWhile (· ≠ '_') = (Text.ofNat index).reverse := by
  have hdigits : ∀ c ∈ (Text.ofNat index).reverse, decide (c ≠ '_') = true := by
    intro c hc
    have := Text.isDigit_of_mem_ofNat (List.mem_reverse.mp hc)
    exact decide_eq_true fun he => by simp [he] at this
  rw [numbered, List.reverse_append, List.reverse_cons, List.append_assoc,
    List.takeWhile_append_of_pos hdigits]
  simp

theorem numbered_inj {a b : Text} {m n : Nat} (h : numbered a m = numbered b n) : m = n := by
  have hd := congrArg (fun name : Text => name.reverse.takeWhile (· ≠ '_')) h
  rw [takeWhile_numbered, takeWhile_numbered] at hd
  exact Text.ofNat_injective (List.reverse_injective hd)

/-- The numbering of one key after the other. -/
inductive NumbersAll : List Text → List Text → List Text → List Text → List Text → Prop where
  | nil {taken later : List Text} (h : taken ⊆ later) (names : List Text) :
      NumbersAll [] taken later names names
  | cons {key : Text} {keys taken more later before between after : List Text}
      (first : Numbers key 0 taken more before between)
      (rest : NumbersAll keys more later between after) :
      NumbersAll (key :: keys) taken later before after

/-- The name ends like the tag of one of the keys. -/
abbrev BearsAny (keys : List Text) (name : Text) : Prop :=
  ∃ key ∈ keys, Bears key name

/-- The names that end like the tag of one of `keys` are exchanged for the `given` ones, of which none
is given twice; the others stay in their places. -/
structure Exchanged (keys given before after : List Text) : Prop where
  perm : after.Perm (before.filter (fun name => ¬ BearsAny keys name) ++ given)
  nodup : given.Nodup
  places : List.Forall₂ (fun new old =>
    new = old ∨ new ∈ given ∧ BearsAny keys old ∧ Derived old new) after before

theorem Gets.subset {next : Nat} {name new : Text} (h : Gets key start next taken later name new) :
    taken ⊆ later := by
  cases h with
  | same hb hi hm => exact hm
  | number index hb hs hi hn hm => exact List.Subset.trans (List.subset_cons_self _ _) hm

namespace Numbers

theorem subset (h : Numbers key start taken later before after) : taken ⊆ later := by
  induction h with
  | nil h => exact h
  | cons first rest ih => exact List.Subset.trans first.subset ih

/-- What numbered names take over from their keys, all names have that are given. -/
theorem forall_mem {P : Text → Prop} (hp : ∀ name index, P name → P (numbered name index))
    (h : Numbers key start taken later before after) (hb : ∀ name ∈ before, P name) :
    ∀ name ∈ after, P name := by
  induction h with
  | nil h => simp
  | cons first rest ih =>
    obtain ⟨hname, hb⟩ := List.forall_mem_cons.mp hb
    refine List.forall_mem_cons.mpr ⟨?_, ih hb⟩
    cases first with
    | same hb hi hm => exact hname
    | number index hb hs hi hn hm => exact hp _ index hname

/-- With fewer names and numbers taken before, the new names are all the more free. -/
theorem mono {least : Nat} {fewer : List Text} (hl : least ≤ start) (hf : fewer ⊆ taken)
    (h : Numbers key start taken later before after) : Numbers key least fewer later before after := by
  cases h with
  | nil h => exact .nil (List.Subset.trans hf h)
  | cons first rest =>
    refine .cons ?_ rest
    cases first with
    | same hb hi hm => exact .same hb (hl.trans hi) (List.Subset.trans hf hm)
    | number index hb hs hi hn hm =>
      exact .number index hb (hl.trans hs) hi (fun ht => hn (hf ht))
        (List.Subset.trans (List.cons_subset_cons _ hf) hm)

/-- Only keys without an opening mark are looked at; the others are not among them afterwards. -/
theorem filter_plain (h : Numbers key start taken later before after) :
    Numbers key start taken later (before.filter (Plain ·)) (after.filter (Plain ·)) := by
  induction h with
  | nil h => exact .nil h
  | @cons start next taken more later before after name new first rest ih =>
    cases first with
    | same hb hi hm =>
      by_cases hp : Plain name
      · simpa [hp] using Numbers.cons (.same hb hi hm) ih
      · simpa [hp] using ih.mono hi hm
    | number index hb hs hi hn hm =>
      by_cases hp : Plain name
      · have hnew : Plain (numbered name index) := (plain_numbered index).mpr hp
        rw [List.filter_cons_of_pos (by simpa using hp), List.filter_cons_of_pos (by simpa using hnew)]
        exact .cons (.number index hb hs hi hn hm) ih
      · have hnew : ¬ Plain (numbered name index) := (plain_numbered index).not.mpr hp
        rw [List.filter_cons_of_neg (by simpa using hp), List.filter_cons_of_neg (by simpa using hnew)]
        exact ih.mono (hs.trans hi.le) (List.Subset.trans (List.subset_cons_self _ _) hm)

/-- A plain key does not end like the tag of any other. -/
theorem filter_plain_eq (hk : ¬ Plain key) (h : Numbers key start taken later before after) :
    after.filter (Plain ·) = before.filter (Plain ·) := by
  induction h with
  | nil h => rfl
  | @cons start next taken more later before after name new first rest ih =>
    cases first with
    | same hb hi hm => rw [List.filter_cons, List.filter_cons, ih]
    | number index hb hs hi hn hm =>
      have hname : ¬ Plain name := fun h => hk (hb.eq_of_plain h ▸ h)
      have hnew : ¬ Plain (numbered name index) := (plain_numbered index).not.mpr hname
      rw [List.filter_cons_of_neg (by simpa using hnew),
        List.filter_cons_of_neg (by simpa using hname), ih]

/-- A numbering gives every name once, and only names that were not taken. -/
theorem exchanged (h : Numbers key start taken later before after) :
    ∃ given, Exchanged [key] given before after ∧ ∀ new ∈ given, ∃ name index,
      new = numbered name index ∧ Bears key name ∧ numbered key index ∉ taken ∧
        numbered key index ∈ later := by
  induction h with
  | nil h => exact ⟨[], ⟨.refl _, .nil, .nil⟩, by simp⟩
  | @cons start next taken more later before after name new first rest ih =>
    obtain ⟨given, hex, hgiven⟩ := ih
    cases first with
    | same hb hi hm =>
      refine ⟨given, ⟨?_, hex.nodup, .cons (.inl rfl) hex.places⟩, ?_⟩
      · simpa [hb] using hex.perm
      · intro new hnew
        obtain ⟨name, index, he, hbears, hn, hl⟩ := hgiven new hnew
        exact ⟨name, index, he, hbears, fun ht => hn (hm ht), hl⟩
    | number index hb hs hi hn hm =>
      have hplaces : List.Forall₂ (fun new old => new = old ∨
          new ∈ numbered name index :: given ∧ BearsAny [key] old ∧ Derived old new) after before :=
        hex.places.imp fun a b h => h.imp_right fun h => ⟨List.mem_cons_of_mem _ h.1, h.2⟩
      refine ⟨numbered name index :: given, ⟨?_, ?_, .cons ?_ hplaces⟩, ?_⟩
      · simpa [hb] using (hex.perm.cons (numbered name index)).trans List.perm_middle.symm
      · refine List.nodup_cons.mpr ⟨fun hmem => ?_, hex.nodup⟩
        obtain ⟨other, j, he, -, hj, -⟩ := hgiven _ hmem
        obtain rfl := numbered_inj he
        exact hj (hm List.mem_cons_self)
      · exact .inr ⟨List.mem_cons_self, ⟨key, by simp, hb⟩, derived_numbered name index⟩
      · refine List.forall_mem_cons.mpr ⟨⟨name, index, rfl, hb, hn, rest.subset (hm (by simp))⟩, ?_⟩
        intro new hnew
        obtain ⟨other, j, he, hbears, hj, hl⟩ := hgiven new hnew
        exact ⟨other, j, he, hbears, fun ht => hj (hm (List.mem_cons_of_mem _ ht)), hl⟩

end Numbers

namespace NumbersAll

theorem subset (h : NumbersAll keys taken later before after) : taken ⊆ later := by
  induction h with
  | nil h names => exact h
  | cons first rest ih => exact List.Subset.trans first.subset ih

theorem mono {fewer : List Text} (hf : fewer ⊆ taken) (h : NumbersAll keys taken later before after) :
    NumbersAll keys fewer later before after := by
  cases h with
  | nil h names => exact .nil (List.Subset.trans hf h) _
  | cons first rest => exact .cons (first.mono (Nat.le_refl _) hf) rest

theorem forall_mem {P : Text → Prop} (hp : ∀ name index, P name → P (numbered name index))
    (h : NumbersAll keys taken later before after) (hb : ∀ name ∈ before, P name) :
    ∀ name ∈ after, P name := by
  induction h with
  | nil h names => exact hb
  | cons first rest ih => exact ih (first.forall_mem hp hb)

/-- Each new name ends like the tag of a plain key that was not taken. -/
theorem exchanged (h : NumbersAll keys taken later before after) (hp : ∀ key ∈ keys, Plain key)
    (ht : keys ⊆ taken) :
    ∃ given, Exchanged keys given before after ∧
      ∀ new ∈ given, ∃ name, Bears name new ∧ Plain name ∧ name ∉ taken := by
  induction h with
  | nil h names => exact ⟨[], ⟨by simp, .nil, List.forall₂_same.mpr fun _ _ => .inl rfl⟩, by simp⟩
  | @cons key keys taken more later before between after first rest ih =>
    obtain ⟨hpk, hps⟩ := List.forall_mem_cons.mp hp
    obtain ⟨htk, hts⟩ := List.cons_subset.mp ht
    have hmore : keys ⊆ more := List.Subset.trans hts first.subset
    obtain ⟨second, hsecond, hlate⟩ := ih hps hmore
    obtain ⟨given, hgiven, hnumbers⟩ := first.exchanged
    have hearly : ∀ new ∈ given, ∃ name, Bears name new ∧ Plain name ∧ name ∉ taken ∧ name ∈ more := by
      intro new hnew
      obtain ⟨name, index, rfl, hb, hn, hl⟩ := hnumbers new hnew
      exact ⟨_, hb.numbered index, (plain_numbered index).mpr hpk, hn, hl⟩
    -- what was given for the first key is not numbered again
    have hdone : ∀ new ∈ given, ¬ BearsAny keys new := by
      rintro new hnew ⟨other, ho, hb⟩
      obtain ⟨name, hname, hplain, hn, -⟩ := hearly new hnew
      obtain rfl := hname.unique hb hplain (hps other ho)
      exact hn (hts ho)
    refine ⟨given ++ second, ⟨?_, ?_, ?_⟩, ?_⟩
    · have hfilter := hgiven.perm.filter fun name => ¬ BearsAny keys name
      have hself : given.filter (fun name => ¬ BearsAny keys name) = given :=
        List.filter_eq_self.mpr fun new hnew => decide_eq_true (hdone new hnew)
      rw [List.filter_append, List.filter_filter, hself] at hfilter
      have hboth : before.filter (fun name => ¬ BearsAny (key :: keys) name) =
          before.filter (fun name => decide (¬ BearsAny keys name) && decide (¬ BearsAny [key] name)) := by
        refine List.filter_congr fun name _ => ?_
        rw [Bool.eq_iff_iff]
        simp [and_comm]
      rw [hboth, ← List.append_assoc]
      exact hsecond.perm.trans (hfilter.append_right second)
    · refine List.nodup_append'.mpr ⟨hgiven.nodup, hsecond.nodup, fun new hnew hlater => ?_⟩
      obtain ⟨name, hname, hplain, -, hm⟩ := hearly new hnew
      obtain ⟨other, hother, hplain', hn⟩ := hlate new hlater
      exact hn (hname.unique hother hplain hplain' ▸ hm)
    · refine forall₂_comp ?_ hsecond.places hgiven.places
      rintro new mid old (rfl | ⟨hnew, hbears, hd⟩) (rfl | ⟨hmid, hold, hd'⟩)
      · exact .inl rfl
      · obtain ⟨other, ho, hb⟩ := hold
        obtain rfl := List.mem_singleton.mp ho
        exact .inr ⟨List.mem_append_left _ hmid, ⟨other, by simp, hb⟩, hd'⟩
      · obtain ⟨other, ho, hb⟩ := hbears
        exact .inr ⟨List.mem_append_right _ hnew, ⟨other, List.mem_cons_of_mem _ ho, hb⟩, hd⟩
      · exact absurd hbears (hdone mid hmid)
    · intro new hnew
      rcases List.mem_append.mp hnew with hnew | hnew
      · obtain ⟨name, hname, hplain, hn, -⟩ := hearly new hnew
        exact ⟨name, hname, hplain, hn⟩
      · obtain ⟨name, hname, hplain, hn⟩ := hlate new hnew
        exact ⟨name, hname, hplain, fun hm => hn (first.subset hm)⟩

/-- The plain keys are numbered as if there were no others. -/
theorem filter_plain (h : NumbersAll keys taken later before after) :
    NumbersAll (keys.filter (Plain ·)) taken later (before.filter (Plain ·))
      (after.filter (Plain ·)) := by
  induction h with
  | nil h names => exact .nil h _
  | @cons key keys taken more later before between after first rest ih =>
    by_cases hp : Plain key
    · rw [List.filter_cons_of_pos (by simpa using hp)]
      exact .cons first.filter_plain ih
    · rw [List.filter_cons_of_neg (by simpa using hp), ← first.filter_plain_eq hp]
      exact ih.mono first.subset

end NumbersAll

/-- All keys on several places are to be numbered, and no key is free to be made. -/
structure Numberable (keys taken before : List Text) : Prop where
  olds : before ⊆ taken
  listed : keys ⊆ taken
  duplicate : ∀ name, 1 < before.count name → name ∈ keys

namespace Numberable

theorem nodup_filter (h : Numberable keys taken before) :
    (before.filter fun name => ¬ BearsAny keys name).Nodup := by
  rw [List.nodup_iff_count]
  intro name
  by_cases hb : BearsAny keys name
  · have hn : name ∉ before.filter fun name => ¬ BearsAny keys name := by simp [hb]
    rw [List.count_eq_zero.mpr hn]
    omega
  · have hc : before.count name ≤ 1 :=
      Nat.not_lt.mp fun hc => hb ⟨name, h.duplicate name hc, .refl name⟩
    exact (List.count_filter (by simpa using hb)).trans_le hc

/-- The names are distinct after an exchange exactly if no new name stands among those that stay. -/
theorem nodup_iff (h : Numberable keys taken before) (hex : Exchanged keys given before after) :
    after.Nodup ↔ ∀ new ∈ given, new ∈ before → BearsAny keys new := by
  rw [hex.perm.nodup_iff, List.nodup_append']
  simp only [h.nodup_filter, hex.nodup, true_and, List.Disjoint]
  constructor
  · intro hd new hnew hm
    apply Classical.byContradiction
    exact fun hb => hd (List.mem_filter.mpr ⟨hm, by simpa using hb⟩) hnew
  · intro hd new hm hnew
    obtain ⟨hm, hb⟩ := List.mem_filter.mp hm
    exact (of_decide_eq_true hb) (hd new hnew hm)

/-- If only plain keys are numbered, the names are distinct afterwards exactly if each of them is the
old one or was none of the old ones. -/
theorem nodup_iff_places (h : Numberable keys taken before) (hp : ∀ key ∈ keys, Plain key)
    (hn : NumbersAll keys taken later before after) :
    after.Nodup ↔ List.Forall₂ (fun new old => new = old ∨ new ∉ before) after before := by
  obtain ⟨given, hex, hgiven⟩ := hn.exchanged hp h.listed
  have hbears : ∀ new ∈ given, ¬ BearsAny keys new := by
    rintro new hnew ⟨key, hk, hb⟩
    obtain ⟨name, hname, hplain, ht⟩ := hgiven new hnew
    exact ht (hname.unique hb hplain (hp key hk) ▸ h.listed hk)
  rw [h.nodup_iff hex]
  constructor
  · intro hd
    refine hex.places.imp fun new old hr => hr.imp_right fun hr hm => ?_
    exact hbears new hr.1 (hd new hr.1 hm)
  · intro hr new hnew hm
    -- a given name that was there before is on one place more than before
    have hcount := count_le_of_forall₂ hr fun old ho => (ho.resolve_right fun hn => hn hm).symm
    have hstay : (before.filter fun name => ¬ BearsAny keys name).count new = before.count new :=
      List.count_filter (by simpa using hbears new hnew)
    have hpos : 0 < given.count new := List.count_pos_iff.mpr hnew
    rw [List.perm_iff_count.mp hex.perm new, List.count_append, hstay] at hcount
    omega

/-- The plain names are distinct afterwards. -/
theorem nodup_plain (h : Numberable keys taken before)
    (hn : NumbersAll keys taken later before after) : (after.filter (Plain ·)).Nodup := by
  have hplain : Numberable (keys.filter (Plain ·)) taken (before.filter (Plain ·)) := by
    refine ⟨?_, ?_, fun name hc => ?_⟩
    · exact List.Subset.trans (List.filter_subset_self _) h.olds
    · exact List.Subset.trans (List.filter_subset_self _) h.listed
    · have hm : name ∈ before.filter (Plain ·) := List.count_pos_iff.mp (by omega)
      have hp := (List.mem_filter.mp hm).2
      have hc : 1 < before.count name := hc.trans_le (List.filter_sublist.count_le name)
      exact List.mem_filter.mpr ⟨h.duplicate name hc, hp⟩
  have hkeys : ∀ key ∈ keys.filter (Plain ·), Plain key := fun key hk => by
    simpa using (List.mem_filter.mp hk).2
  obtain ⟨given, hex, hgiven⟩ := hn.filter_plain.exchanged hkeys hplain.listed
  refine (hplain.nodup_iff hex).mpr fun new hnew hm => ?_
  obtain ⟨name, hb, -, ht⟩ := hgiven new hnew
  have hp : Plain new := by simpa using (List.mem_filter.mp hm).2
  exact absurd (hplain.olds (hb.eq_of_plain hp ▸ hm)) ht

end Numberable

end MessageKeys.Markup
