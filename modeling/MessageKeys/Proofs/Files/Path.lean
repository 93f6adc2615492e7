import Mathlib.Data.List.DropRight
import MessageKeys.Proofs.Files.Tree
import MessageKeys.Proofs.Text.Pieces

/-!
# Folders around places

Where a path leads is told by its steps, and steps that stay where they are tell nothing. So the
parent of a path leads to the folder around the place that the path itself leads to, and another name
in the place of the last step leads to a neighbour.
-/
namespace MessageKeys.Path

variable {path parent folder : Path} {name first : Text} {rest steps : List Text}
  {working : Location}

/-- A name that something in a folder can have. -/
structure IsName (name : Text) : Prop where
  moves : isStill name = false
  not_up : name ≠ ['.', '.']
  no_slash : '/' ∉ name

theorem IsName.stride (h : IsName name) (location : Location) :
    stride location name = name :: location := by
  rw [Path.stride, if_neg (by simp [h.moves]), if_neg h.not_up]

theorem foldl_stride_of_still (h : ∀ step ∈ steps, isStill step = true) (location : Location) :
    steps.foldl stride location = location := by
  induction steps with
  | nil => rfl
  | cons step steps ih =>
    obtain ⟨hstep, hsteps⟩ := List.forall_mem_cons.mp h
    rw [List.foldl_cons, stride, if_pos hstep, ih hsteps]

theorem exists_withoutTrailing (steps : List Text) :
    ∃ stills, (∀ step ∈ stills, isStill step = true) ∧ steps = withoutTrailing steps ++ stills :=
  ⟨steps.rtakeWhile isStill, fun _ hs => List.mem_rtakeWhile_imp hs,
    List.rdropWhile_append_rtakeWhile.symm⟩

theorem withoutTrailing_concat (steps : List Text) (h : isStill name = false) :
    withoutTrailing (steps ++ [name]) = steps ++ [name] :=
  List.rdropWhile_concat_neg isStill steps name (by simp [h])

theorem isAbsolute_iff (h : path.text.pieces '/' = first :: rest) :
    path.isAbsolute = true ↔ first = [] ∧ rest ≠ [] := by
  obtain ⟨text⟩ := path
  rw [isAbsolute, decide_eq_true_eq]
  cases text with
  | nil =>
    obtain ⟨rfl, rfl⟩ := List.cons.inj h
    simp
  | cons c text =>
    by_cases hc : c = '/'
    · subst hc
      obtain ⟨rfl, rfl⟩ := List.cons.inj ((Text.pieces_cons_self '/' text).symm.trans h)
      simp [Text.pieces_ne_nil]
    · obtain ⟨piece, more, -, hct⟩ := Text.pieces_cons_of_ne hc text
      obtain ⟨rfl, rfl⟩ := List.cons.inj (hct.symm.trans h)
      simp [hc]

/-- Where the steps of a path are taken from. -/
def origin (working : Location) (first : Text) (rest : List Text) : Location :=
  if first = [] ∧ rest ≠ [] then [] else working

theorem origin_congr {kept : List Text} (h : first = [] → (rest ≠ [] ↔ kept ≠ [])) :
    origin working first rest = origin working first kept :=
  if_congr (and_congr_right h) rfl rfl

theorem origin_eq (h : path.text.pieces '/' = first :: rest) (working : Location) :
    (if path.isAbsolute then [] else working) = origin working first rest := by
  simp only [origin, ← isAbsolute_iff h]

theorem place_eq (h : path.text.pieces '/' = first :: rest) (working : Location) :
    path.place working = (first :: rest).foldl stride (origin working first rest) := by
  rw [place, h, origin_eq h]

theorem exists_pieces (path : Path) : ∃ first rest, path.text.pieces '/' = first :: rest :=
  List.exists_cons_of_ne_nil (Text.pieces_ne_nil '/' path.text)

theorem steps_eq (h : path.text.pieces '/' = first :: rest) :
    path.steps = (first, withoutTrailing rest) := by
  rw [Path.steps, h]

/-- How the parent of a path is written. It is empty for a path of one step; else it has the steps
up to the last one that moves, less those in front of it that stay where they are. -/
theorem parent?_eq_some (hp : path.text.pieces '/' = first :: rest)
    (h : path.parent? = some parent) :
    withoutTrailing rest = [] ∧ first ≠ [] ∧ parent.text = [] ∨
      ∃ kept stills last more, rest = kept ++ (stills ++ last :: more) ∧
        (∀ step ∈ stills, isStill step = true) ∧ (∀ step ∈ more, isStill step = true) ∧
        withoutTrailing rest = kept ++ (stills ++ [last]) ∧
        parent.text = if first = [] ∧ kept = [] then ['/'] else Text.join ['/'] (first :: kept) := by
  rw [parent?, steps_eq hp] at h
  obtain ⟨more, hmore, hrest⟩ := exists_withoutTrailing rest
  rcases List.eq_nil_or_concat (withoutTrailing rest) with hnil | ⟨front, last, hlast⟩
  · rw [hnil] at h
    refine .inl ⟨hnil, ?_⟩
    cases first with
    | nil => cases h
    | cons c first =>
      obtain rfl := Option.some.inj h
      exact ⟨List.cons_ne_nil c first, rfl⟩
  · rw [List.concat_eq_append] at hlast
    obtain ⟨stills, hstills, hfront⟩ := exists_withoutTrailing front
    refine .inr ⟨withoutTrailing front, stills, last, more, ?_, hstills, hmore, ?_, ?_⟩
    · rw [hrest, hlast]
      nth_rewrite 1 [hfront]
      simp
    · rw [hlast, ← List.append_assoc, ← hfront]
    · rw [hlast] at h
      split at h
      · next he => simp at he
      · next he => simp at he
      · next known others _ _ he =>
        obtain ⟨rfl, rfl⟩ := Prod.mk.inj he
        simp only [List.dropLast_concat, Bool.and_eq_true, List.isEmpty_iff] at h
        split at h
        · next hempty =>
          obtain rfl := Option.some.inj h
          rw [if_pos hempty]
        · next hempty =>
          obtain rfl := Option.some.inj h
          rw [if_neg hempty]

/-- The steps of a parent that has any. -/
theorem pieces_of_parent {kept more : List Text} (hp : path.text.pieces '/' = first :: (kept ++ more))
    (ht : parent.text = if first = [] ∧ kept = [] then ['/'] else Text.join ['/'] (first :: kept)) :
    parent.text.pieces '/' = first :: if first = [] ∧ kept = [] then [[]] else kept := by
  rw [ht]
  split
  · next hempty =>
    rw [hempty.1]
    rfl
  · refine Text.pieces_join (List.cons_ne_nil first kept) fun step hs => ?_
    refine Text.separator_not_mem (?_ : step ∈ path.text.pieces '/')
    rw [hp, ← List.cons_append]
    exact List.mem_append_left more hs

theorem fileName?_eq_some (hp : path.text.pieces '/' = first :: rest)
    (hn : path.fileName? = some name) :
    IsName name ∧ (withoutTrailing rest).getLast?.getD first = name := by
  have hslash : ∀ step ∈ first :: rest, '/' ∉ step := fun step hs =>
    Text.separator_not_mem (hp ▸ hs)
  rw [fileName?, steps_eq hp] at hn
  dsimp only at hn
  split at hn
  · cases hn
  · next hmoves =>
    obtain rfl := Option.some.inj hn
    simp only [Bool.or_eq_true, beq_iff_eq, not_or, Bool.not_eq_true] at hmoves
    refine ⟨⟨hmoves.1, hmoves.2, hslash _ ?_⟩, rfl⟩
    cases hl : (withoutTrailing rest).getLast? with
    | none => exact List.mem_cons_self
    | some last =>
      obtain ⟨stills, -, hrest⟩ := exists_withoutTrailing rest
      rw [hrest]
      exact List.mem_cons_of_mem _ (List.mem_append_left _ (List.mem_of_getLast? hl))

theorem isName_of_fileName? (h : path.fileName? = some name) : IsName name :=
  have ⟨_, _, hp⟩ := exists_pieces path
  (fileName?_eq_some hp h).1

/-- A parent leads to the folder around the place that its path leads to. -/
theorem place_of_parent? (hn : path.fileName? = some name) (h : path.parent? = some parent)
    (working : Location) : path.place working = name :: parent.place working := by
  obtain ⟨first, rest, hp⟩ := exists_pieces path
  obtain ⟨hname, hlast⟩ := fileName?_eq_some hp hn
  rw [place_eq hp]
  rcases parent?_eq_some hp h with ⟨hnil, hne, hempty⟩ |
      ⟨kept, stills, last, more, hrest, hstills, hmore, hmoves, htext⟩
  · obtain ⟨stills, hstills, hrest⟩ := exists_withoutTrailing rest
    rw [hnil] at hlast hrest
    obtain rfl : first = name := hlast
    obtain rfl : rest = stills := hrest
    obtain ⟨text⟩ := parent
    obtain rfl : text = [] := hempty
    rw [origin, if_neg fun hf => hne hf.1, List.foldl_cons, foldl_stride_of_still hstills,
      hname.stride]
    rfl
  · rw [hmoves, ← List.append_assoc, List.getLast?_concat] at hlast
    obtain rfl : last = name := hlast
    have hfold : (first :: rest).foldl stride (origin working first rest) =
        last :: (first :: kept).foldl stride (origin working first rest) := by
      rw [hrest, ← List.cons_append, List.foldl_append, List.foldl_append, List.foldl_cons,
        foldl_stride_of_still hstills, foldl_stride_of_still hmore, hname.stride]
    have hmore : rest ≠ [] := by simp [hrest]
    rw [hfold, place_eq (pieces_of_parent (hrest ▸ hp) htext)]
    by_cases hroot : first = [] ∧ kept = []
    · obtain ⟨rfl, rfl⟩ := hroot
      simp [origin, hmore, Path.stride, isStill]
    · rw [if_neg hroot]
      exact congrArg (last :: (first :: kept).foldl stride ·)
        (origin_congr fun hf => iff_of_true hmore fun hk => hroot ⟨hf, hk⟩)

theorem exists_parent?_of_fileName? (hn : path.fileName? = some name) :
    ∃ parent, path.parent? = some parent := by
  obtain ⟨first, rest, hp⟩ := exists_pieces path
  obtain ⟨hname, hlast⟩ := fileName?_eq_some hp hn
  rw [parent?, steps_eq hp]
  split
  · next he =>
    obtain ⟨rfl, hnil⟩ := Prod.mk.inj he
    rw [hnil] at hlast
    obtain rfl : [] = name := hlast
    exact absurd hname.moves (by decide)
  · exact ⟨_, rfl⟩
  · dsimp only
    split <;> exact ⟨_, rfl⟩

/-- A path leads to a place under its own name. -/
theorem head?_place (h : path.fileName? = some name) (working : Location) :
    (path.place working).head? = some name := by
  obtain ⟨parent, hp⟩ := exists_parent?_of_fileName? h
  rw [place_of_parent? h hp]
  rfl

/-- The steps of a path into a folder: those of the folder, and the name. -/
theorem pieces_join (hn : IsName name) (folder : Path) :
    ∃ front, (folder.join ⟨name⟩).text.pieces '/' = front ++ [name] ∧
      ∀ location, (folder.text.pieces '/').foldl stride location = front.foldl stride location := by
  have habsolute : isAbsolute ⟨name⟩ = false := by
    rw [isAbsolute, decide_eq_false_iff_not]
    exact fun hh => hn.no_slash (List.mem_of_mem_head? hh)
  have hpieces : Text.pieces '/' name = [name] := Text.pieces_of_not_mem hn.no_slash
  rw [join, habsolute, Bool.false_or]
  split
  · next hempty =>
    rw [List.isEmpty_iff.mp hempty]
    exact ⟨[], hpieces, fun _ => rfl⟩
  · split
    · next hslash =>
      obtain ⟨front, hfront⟩ := List.getLast?_eq_some_iff.mp hslash
      refine ⟨Text.pieces '/' front, ?_, fun location => ?_⟩
      · rw [hfront, List.append_assoc, List.singleton_append, Text.pieces_append, hpieces]
      · rw [hfront, Text.pieces_append, List.foldl_append]
        rfl
    · exact ⟨folder.text.pieces '/', by rw [Text.pieces_append, hpieces], fun _ => rfl⟩

theorem isAbsolute_join (hn : IsName name) (folder : Path) :
    (folder.join ⟨name⟩).isAbsolute = folder.isAbsolute := by
  have hname : name.head? ≠ some '/' := fun hh => hn.no_slash (List.mem_of_mem_head? hh)
  unfold join
  simp only [isAbsolute, hname, decide_false, Bool.false_or]
  split
  · next hempty => simp [List.isEmpty_iff.mp hempty, hname]
  · next hne =>
    obtain ⟨c, more, hc⟩ := List.exists_cons_of_ne_nil (show folder.text ≠ [] by simpa using hne)
    rw [hc]
    split <;> rfl

/-- A name in a folder stands in the place to which the folder's path leads. -/
theorem join_inj {folder : Path} {name other : Text} (hn : '/' ∉ name) (ho : '/' ∉ other)
    (h : folder.join ⟨name⟩ = folder.join ⟨other⟩) : name = other := by
  have hrelative {name : Text} (hn : '/' ∉ name) : isAbsolute ⟨name⟩ = false := by
    simpa [isAbsolute] using fun hs => hn (List.mem_of_mem_head? hs)
  simp only [join, hrelative hn, hrelative ho, Bool.false_or] at h
  split at h
  · exact congrArg text h
  · split at h <;> simpa using h

theorem place_join (hn : IsName name) (folder : Path) (working : Location) :
    (folder.join ⟨name⟩).place working = name :: folder.place working := by
  obtain ⟨front, hp, hfold⟩ := pieces_join hn folder
  rw [place, hp, isAbsolute_join hn, List.foldl_concat, ← hfold, hn.stride]
  rfl

theorem fileName?_join (hn : IsName name) (folder : Path) :
    (folder.join ⟨name⟩).fileName? = some name := by
  have hstays : ¬ ((isStill name || name == ['.', '.']) = true) := by
    simp [hn.moves, hn.not_up]
  obtain ⟨front, hp, -⟩ := pieces_join hn folder
  cases front with
  | nil =>
    rw [fileName?, steps_eq hp]
    exact if_neg hstays
  | cons first rest =>
    rw [List.cons_append] at hp
    rw [fileName?, steps_eq hp, withoutTrailing_concat rest hn.moves]
    dsimp only
    rw [List.getLast?_concat]
    exact if_neg hstays

/-- Another name in the place of a path's own leads to a neighbour. -/
theorem place_withFileName {other : Text} (hn : path.fileName? = some name) (ho : IsName other)
    (working : Location) :
    (path.withFileName other).place working = other :: (path.place working).tail := by
  obtain ⟨parent, hparent⟩ := exists_parent?_of_fileName? hn
  have hthere : path.fileName?.isSome = true := by rw [hn]; rfl
  rw [withFileName, if_pos hthere, hparent, Option.getD_some, place_join ho,
    place_of_parent? hn hparent, List.tail_cons]

end MessageKeys.Path
