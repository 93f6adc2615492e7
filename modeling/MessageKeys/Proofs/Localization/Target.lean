import Mathlib.Data.List.Nodup
import MessageKeys.LocalizationRun
import MessageKeys.Proofs.Files.Path
import MessageKeys.Proofs.Text.Cut
import MessageKeys.World

/-!
# Where key files are localized to

The key files of a locale are found by the end of their names, and the name of a target is made by
replacing the first segment of the locale. Where the segment stands once, the end is what is
replaced: targets are different for different files and locales, and none of them is a key file of
the source. Where it stands in front of the end also, the end is kept, and the target has the name
of a key file of the source.
-/
namespace MessageKeys.Localization

open LocalizationRun (keyFileEnding keyFiles targetLocales)

variable {source target locale : Locale} {base other : Text}

/-- A locale that can be a part of a file name between two dots. -/
structure BetweenDots (locale : Locale) : Prop where
  no_dot : '.' ∉ locale.toText
  no_slash : '/' ∉ locale.toText

/-- A locale that key files of another one are localized into. -/
structure IsTarget (source target : Locale) : Prop extends BetweenDots target where
  region : target.region = source.region
  language : target.language ≠ source.language

/-- Whether the segment of a locale stands in front of the end of a key file's name. -/
def Repeats (locale : Locale) (base : Text) : Prop :=
  locale.segment <:+: base ++ ['.']

theorem eq_withLanguage_iff {code : Text} :
    target = source.withLanguage code ↔ target.region = source.region ∧ target.language = code := by
  obtain ⟨region, language⟩ := target
  exact Locale.mk.injEq .. ▸ Iff.rfl

/-- The locales that a run localizes into: those of the codes in the region of the source, but for
the source itself. -/
theorem mem_targetLocales {codes : List Text} :
    target ∈ targetLocales source codes ↔
      target.region = source.region ∧ target.language ≠ source.language ∧
        target.language ∈ codes := by
  have go (targets : List Locale) : target ∈ codes.foldl (fun targets code =>
      let target := source.withLanguage code
      if code = source.language || target ∈ targets then targets else targets ++ [target]) targets ↔
      target ∈ targets ∨ target.region = source.region ∧ target.language ≠ source.language ∧
        target.language ∈ codes := by
    induction codes generalizing targets with
    | nil => simp
    | cons code codes ih =>
      rw [List.foldl_cons, ih, List.mem_cons]
      dsimp only
      split
      · next h =>
        rw [Bool.or_eq_true, decide_eq_true_eq, decide_eq_true_eq] at h
        refine or_congr_right' fun hnot => and_congr_right fun hregion => and_congr_right fun hne => ?_
        refine (or_iff_right fun hcode => ?_).symm
        rcases h with rfl | h
        · exact hne hcode
        · exact hnot (eq_withLanguage_iff.mpr ⟨hregion, hcode⟩ ▸ h)
      · next h =>
        rw [Bool.or_eq_true, decide_eq_true_eq, decide_eq_true_eq, not_or] at h
        rw [List.mem_append, List.mem_singleton, eq_withLanguage_iff]
        constructor
        · rintro ((hm | ⟨hregion, rfl⟩) | ⟨hregion, hne, hm⟩)
          · exact .inl hm
          · exact .inr ⟨hregion, h.1, .inl rfl⟩
          · exact .inr ⟨hregion, hne, .inr hm⟩
        · rintro (hm | ⟨hregion, hne, hcode | hm⟩)
          · exact .inl (.inl hm)
          · exact .inl (.inr ⟨hregion, hcode⟩)
          · exact .inr ⟨hregion, hne, hm⟩
  exact (go []).trans (by simp)

theorem nodup_targetLocales (codes : List Text) : (targetLocales source codes).Nodup := by
  have go (targets : List Locale) (ht : targets.Nodup) : (codes.foldl (fun targets code =>
      let target := source.withLanguage code
      if code = source.language || target ∈ targets then targets else targets ++ [target])
      targets).Nodup := by
    induction codes generalizing targets with
    | nil => exact ht
    | cons code rest ih =>
      rw [List.foldl_cons]
      apply ih
      dsimp only
      split
      · exact ht
      · next h =>
        rw [Bool.or_eq_true, decide_eq_true_eq, decide_eq_true_eq, not_or] at h
        rw [← List.concat_eq_append]
        exact ht.concat h.2
  exact go [] List.nodup_nil

theorem toText_inj (hr : target.region = locale.region) :
    target.toText = locale.toText ↔ target = locale := by
  obtain ⟨region, language⟩ := target
  obtain ⟨_, other⟩ := locale
  obtain rfl : region = _ := hr
  simp [Locale.toText]

theorem IsTarget.toText_ne (h : IsTarget source target) : target.toText ≠ source.toText :=
  fun hsame => h.language (congrArg Locale.language ((toText_inj h.region).mp hsame))

/-- The name of a key file tells its locale and what stands in front of it. -/
theorem keyFile_inj (hs : BetweenDots source) (ht : BetweenDots target) :
    base ++ keyFileEnding source = other ++ keyFileEnding target ↔
      base = other ∧ source.toText = target.toText := by
  have hends (locale : Locale) (base : Text) : base ++ keyFileEnding locale =
      (base ++ '.' :: locale.toText) ++ ".properties".toList := by
    simp [keyFileEnding, Locale.segment]
  rw [hends, hends, List.append_left_inj, Text.append_separator_inj hs.no_dot ht.no_dot]

theorem isName_keyFile (hn : '/' ∉ base ++ keyFileEnding locale) :
    Path.IsName (base ++ keyFileEnding locale) := by
  have hlong : 2 < (base ++ keyFileEnding locale).length := by
    have hword : "properties".toList.length = 10 := rfl
    rw [keyFileEnding, List.length_append, List.length_append, hword]
    omega
  generalize base ++ keyFileEnding locale = name at hn hlong
  refine ⟨?_, fun h => ?_, hn⟩
  · rw [Path.isStill, Bool.or_eq_false_iff, List.isEmpty_eq_false_iff, beq_eq_false_iff_ne]
    constructor <;> rintro rfl <;> simp at hlong
  · simp [h] at hlong

/-- Where the segment stands once, the end of the name is replaced. -/
theorem targetName_of_once (hs : BetweenDots source) (hb : ¬ Repeats source base) :
    targetName (base ++ keyFileEnding source) source target = base ++ keyFileEnding target := by
  have hclear : Text.Clear source.segment base (source.segment ++ "properties".toList) := by
    refine Text.Clear.of_absent (fun h => hb (h.trans (List.prefix_append _ _).isInfix)) ?_
    intro back ahead hback hne hn he hp
    -- The dots of the segment stand at its ends, so only the last one can be shared.
    obtain ⟨c, back, rfl⟩ := List.exists_cons_of_ne_nil hne
    obtain ⟨d, ahead, rfl⟩ := List.exists_cons_of_ne_nil hn
    obtain ⟨rfl, -⟩ := List.cons_prefix_cons.mp hp
    obtain ⟨rfl, htext⟩ := List.cons.inj he
    have hrest : ahead = [] := by
      rcases List.append_eq_append_iff.mp htext with ⟨inner, -, hi⟩ | ⟨inner, hi, hrest⟩
      · cases inner with
        | nil => exact (List.cons.inj hi).2.symm
        | cons e inner => simp at hi
      · cases inner with
        | nil => exact (List.cons.inj hrest).2
        | cons e inner =>
          obtain ⟨rfl, -⟩ := List.cons.inj hrest
          exact absurd (hi ▸ by simp) hs.no_dot
    obtain ⟨front, rfl⟩ := hback
    exact hb ⟨front, [], by rw [he, hrest]; simp⟩
  rw [targetName, Text.replaceFirst, keyFileEnding, Text.cut?_of_clear hclear]
  exact List.append_assoc _ _ _

/-- Where the segment stands in front of the end also, the end is kept. -/
theorem targetName_of_repeats (hb : Repeats source base) :
    ∃ other, targetName (base ++ keyFileEnding source) source target =
      other ++ keyFileEnding source := by
  cases hcut : (base ++ ['.']).cut? source.segment with
  | none => exact absurd hb (Text.cut?_eq_none_iff.mp hcut)
  | some found =>
    obtain ⟨before, after⟩ := found
    have hname : base ++ keyFileEnding source =
        (base ++ ['.']) ++ (source.toText ++ ".properties".toList) := by
      simp [keyFileEnding, Locale.segment]
    obtain ⟨front, hfront⟩ : ∃ front, before ++ target.segment ++ after = front ++ ['.'] := by
      rcases List.eq_nil_or_concat after with rfl | ⟨front, last, rfl⟩
      · exact ⟨before ++ '.' :: target.toText, by simp [Locale.segment]⟩
      · have hlast := Text.cut?_eq hcut
        rw [List.concat_eq_append, ← List.append_assoc] at hlast ⊢
        obtain ⟨-, hdot⟩ := List.append_inj' hlast rfl
        exact ⟨before ++ target.segment ++ front, by rw [hdot, List.append_assoc]⟩
    refine ⟨front, ?_⟩
    rw [targetName, Text.replaceFirst, hname, Text.cut?_append_right hcut]
    dsimp only
    rw [← List.append_assoc, hfront]
    simp [keyFileEnding, Locale.segment]

theorem isName_targetName (hs : BetweenDots source) (ht : BetweenDots target)
    (hn : '/' ∉ base ++ keyFileEnding source) :
    Path.IsName (targetName (base ++ keyFileEnding source) source target) := by
  have hslash : '/' ∉ targetName (base ++ keyFileEnding source) source target := by
    intro h
    rcases Text.mem_replaceFirst h with h | h
    · exact hn h
    · exact ht.no_slash (by simpa [Locale.segment] using h)
  by_cases hb : Repeats source base
  · obtain ⟨other, hother⟩ := @targetName_of_repeats source target base hb
    rw [hother] at hslash ⊢
    exact isName_keyFile hslash
  · rw [targetName_of_once hs hb] at hslash ⊢
    exact isName_keyFile hslash

section keyFiles

variable {world : World} {folder file : Path} {working : Location}

def keyFile (folder : Path) (locale : Locale) (base : Text) : Path :=
  folder.join ⟨base ++ keyFileEnding locale⟩

/-- Whether a folder has the key file with a base. -/
def HasKeyFile (world : World) (folder : Path) (locale : Locale) (base : Text) : Prop :=
  (base ++ keyFileEnding locale, Kind.file) ∈ world.tree.children world.working folder

theorem keyFiles_run (folder : Path) (locale : Locale) (world : World) :
    (keyFiles folder locale).run world =
      ((((world.tree.children world.working folder).filterMap fun child =>
        if child.2 = .file && (keyFileEnding locale).isSuffixOf child.1 then some child.1
        else none).mergeSort fun a b => String.ofList a ≤ String.ofList b).map fun name =>
          folder.join ⟨name⟩, world) :=
  rfl

/-- The key files that are found are the files in the folder whose names end as they should. -/
theorem mem_keyFiles : file ∈ ((keyFiles folder locale).run world).1 ↔
    ∃ base, HasKeyFile world folder locale base ∧ file = keyFile folder locale base := by
  simp only [keyFiles_run, List.mem_map, List.mem_mergeSort, List.mem_filterMap]
  constructor
  · rintro ⟨name, ⟨⟨_, kind⟩, hchild, hname⟩, rfl⟩
    obtain ⟨hfits, hsame⟩ := Option.ite_none_right_eq_some.mp hname
    obtain rfl := Option.some.inj hsame
    simp only [Bool.and_eq_true, decide_eq_true_eq, List.isSuffixOf_iff_suffix] at hfits
    obtain ⟨rfl, base, rfl⟩ := hfits
    exact ⟨base, hchild, rfl⟩
  · rintro ⟨base, hchild, rfl⟩
    exact ⟨_, ⟨_, hchild, by simp⟩, rfl⟩

/-- No key file is found twice. -/
theorem nodup_keyFiles (hnames : ∀ child ∈ world.tree.children world.working folder, '/' ∉ child.1) :
    ((keyFiles folder locale).run world).1.Nodup := by
  rw [keyFiles_run]
  have hfound : ((world.tree.children world.working folder).filterMap fun child =>
      if child.2 = .file && (keyFileEnding locale).isSuffixOf child.1 then some child.1
      else none).Nodup := by
    refine List.pairwise_filterMap.mpr ((List.pairwise_map.mp
      (Tree.nodup_children world.tree world.working folder)).imp fun {first second} hne => ?_)
    intro name hname name' hname'
    obtain ⟨-, h⟩ := Option.ite_none_right_eq_some.mp hname
    obtain ⟨-, h'⟩ := Option.ite_none_right_eq_some.mp hname'
    rwa [← Option.some.inj h, ← Option.some.inj h']
  have hplain {name : Text} (h : name ∈ ((world.tree.children world.working folder).filterMap
      fun child => if child.2 = .file && (keyFileEnding locale).isSuffixOf child.1 then some child.1
        else none).mergeSort fun a b => String.ofList a ≤ String.ofList b) : '/' ∉ name := by
    obtain ⟨child, hchild, hname⟩ := List.mem_filterMap.mp (List.mem_mergeSort.mp h)
    obtain ⟨-, hname⟩ := Option.ite_none_right_eq_some.mp hname
    exact Option.some.inj hname ▸ hnames child hchild
  refine List.Nodup.map_on (fun name hm other ho => Path.join_inj (hplain hm) (hplain ho)) ?_
  exact (List.mergeSort_perm _ _).nodup_iff.mpr hfound

theorem place_keyFile (hn : '/' ∉ base ++ keyFileEnding source) :
    (keyFile folder source base).place working =
      (base ++ keyFileEnding source) :: folder.place working :=
  Path.place_join (isName_keyFile hn) folder working

/-- The target of a key file stands in its folder. -/
theorem place_targetPath (hs : BetweenDots source) (ht : BetweenDots target)
    (hn : '/' ∉ base ++ keyFileEnding source) :
    (targetPath (keyFile folder source base) source target).place working =
      targetName (base ++ keyFileEnding source) source target :: folder.place working := by
  have hname : (keyFile folder source base).fileName? = some (base ++ keyFileEnding source) :=
    Path.fileName?_join (isName_keyFile hn) folder
  rw [targetPath, hname, Option.getD_some,
    Path.place_withFileName hname (isName_targetName hs ht hn), place_keyFile hn, List.tail_cons]

end keyFiles

/-- The key files of a locale `source` that are found in a folder are the files whose names have the
end of `source` behind a base. The target of such a file for another locale of the region stands in
the folder and has the base and the end of the other locale, if and only if the segment of `source`
is not in the base also; else it has the end of `source` as before. Where the segment is not in the
base, the target is none of the files that are found, and it is the target of no other of them and
for no other locale. -/
theorem targets_of_keyFiles (world : World) (folder : Path) (source : Locale)
    (hs : BetweenDots source)
    (hnames : ∀ child ∈ world.tree.children world.working folder, '/' ∉ child.1) :
    let files := ((keyFiles folder source).run world).1
    let place := fun (path : Path) => path.place world.working
    (∀ file, file ∈ files ↔
      ∃ base, HasKeyFile world folder source base ∧ file = keyFile folder source base) ∧
    ∀ base, HasKeyFile world folder source base → ∀ target, IsTarget source target →
      let found := place (targetPath (keyFile folder source base) source target)
      (found = (base ++ keyFileEnding target) :: place folder ↔ ¬ Repeats source base) ∧
      (Repeats source base → ∃ other, found = (other ++ keyFileEnding source) :: place folder) ∧
      (¬ Repeats source base → (∀ file ∈ files, found ≠ place file) ∧
        ∀ file ∈ files, ∀ locale, IsTarget source locale →
          place (targetPath file source locale) = found →
            file = keyFile folder source base ∧ locale = target) := by
  intro files place
  refine ⟨fun file => mem_keyFiles, fun base hbase target ht => ?_⟩
  extract_lets found
  have hplace {base : Text} (h : HasKeyFile world folder source base) {locale : Locale}
      (hl : BetweenDots locale) : place (targetPath (keyFile folder source base) source locale) =
        targetName (base ++ keyFileEnding source) source locale :: place folder :=
    place_targetPath hs hl (hnames _ h)
  have hfound : found = targetName (base ++ keyFileEnding source) source target :: place folder :=
    hplace hbase ht.toBetweenDots
  by_cases hb : Repeats source base
  · obtain ⟨front, hfront⟩ := @targetName_of_repeats source target base hb
    rw [hfront] at hfound
    refine ⟨⟨fun h => ?_, fun h => absurd hb h⟩, fun _ => ⟨front, hfound⟩, fun h => absurd hb h⟩
    obtain ⟨-, hsame⟩ := (keyFile_inj hs ht.toBetweenDots).mp (List.cons.inj (hfound.symm.trans h)).1
    exact absurd hsame.symm ht.toText_ne
  rw [targetName_of_once hs hb] at hfound
  refine ⟨⟨fun _ => hb, fun _ => hfound⟩, fun h => absurd h hb, fun _ => ⟨?_, ?_⟩⟩
  · intro file hfile hsame
    obtain ⟨other, hother, rfl⟩ := mem_keyFiles.mp hfile
    have hthere : place (keyFile folder source other) =
        (other ++ keyFileEnding source) :: place folder := place_keyFile (hnames _ hother)
    rw [hfound, hthere] at hsame
    exact ht.toText_ne ((keyFile_inj ht.toBetweenDots hs).mp (List.cons.inj hsame).1).2
  · intro file hfile locale hl hsame
    obtain ⟨other, hother, rfl⟩ := mem_keyFiles.mp hfile
    rw [hplace hother hl.toBetweenDots, hfound] at hsame
    have hname := (List.cons.inj hsame).1
    by_cases ho : Repeats source other
    · obtain ⟨front, hfront⟩ := @targetName_of_repeats source locale other ho
      rw [hfront] at hname
      exact absurd ((keyFile_inj hs ht.toBetweenDots).mp hname).2.symm ht.toText_ne
    · rw [targetName_of_once hs ho] at hname
      obtain ⟨rfl, hlocale⟩ := (keyFile_inj hl.toBetweenDots ht.toBetweenDots).mp hname
      exact ⟨rfl, (toText_inj (hl.region.trans ht.region.symm)).mp hlocale⟩

section sample

def english : Locale := ⟨"US".toList, "en".toList⟩

def sampleFolder : Path := ⟨"/k".toList⟩

/-- A machine with files in the folder `/k`, and with a service that cannot be reached. -/
def folderOf (files : List (Text × Text)) : World where
  tree := ⟨.ofList ((["k".toList], .folder) ::
    files.map fun (name, content) => ([name, "k".toList], .file content.toBytes))⟩
  working := []
  input := []
  output := []
  errors := []
  service := fun _ _ _ => .error .network
  calls := []
  time := ⟨0⟩

end sample

theorem targets_of_keyFiles_dotted :
    let world := folderOf [("a.b.US_en.properties".toList, []),
      ("a.US_en.US_en.properties".toList, [])]
    let target := english.withLanguage "es".toList
    let found := (targetPath (keyFile sampleFolder english "a.b".toList) english target).place []
    found = ["a.b.US_es.properties".toList, "k".toList] ∧
      ∀ file ∈ ((keyFiles sampleFolder english).run world).1, found ≠ file.place [] := by
  intro world target found
  have hnames : ∀ child ∈ world.tree.children world.working sampleFolder, '/' ∉ child.1 := by
    decide +kernel
  have hthere : HasKeyFile world sampleFolder english "a.b".toList := by
    unfold HasKeyFile
    decide +kernel
  have htarget : IsTarget english target := ⟨⟨by decide, by decide⟩, rfl, by decide⟩
  have honce : ¬ Repeats english "a.b".toList := by
    unfold Repeats
    decide
  obtain ⟨-, hall⟩ := targets_of_keyFiles world sampleFolder english ⟨by decide, by decide⟩ hnames
  obtain ⟨hplace, -, hnone⟩ := hall "a.b".toList hthere target htarget
  exact ⟨hplace.mpr honce, (hnone honce).1⟩

/-- A key file may be localized into another key file: `a.US_en.US_en.properties` is written over
`a.US_es.US_en.properties`. -/
theorem keyFile_overwritten :
    let world := folderOf [("a.US_en.US_en.properties".toList, []),
      ("a.US_es.US_en.properties".toList, [])]
    let files := ((keyFiles sampleFolder english).run world).1
    IsTarget english (english.withLanguage "es".toList) ∧
      ∃ first ∈ files, ∃ second ∈ files, first ≠ second ∧
        targetPath first english (english.withLanguage "es".toList) = second := by
  intro world files
  have hfirst : keyFile sampleFolder english "a.US_en".toList ∈ files :=
    mem_keyFiles.mpr ⟨_, by unfold HasKeyFile; decide +kernel, rfl⟩
  have hsecond : keyFile sampleFolder english "a.US_es".toList ∈ files :=
    mem_keyFiles.mpr ⟨_, by unfold HasKeyFile; decide +kernel, rfl⟩
  exact ⟨⟨⟨by decide, by decide⟩, rfl, by decide⟩, _, hfirst, _, hsecond, by decide,
    by decide +kernel⟩

end MessageKeys.Localization
