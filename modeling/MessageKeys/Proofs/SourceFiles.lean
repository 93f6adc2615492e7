import MessageKeys.Proofs.Files.Finding

/-!
# The sources of a run

A word names files: a plain one the file at its own path, a pattern the files that it finds. The
sources of a run are these files in the order in which they are named, where a path is left out that
takes the same steps as one before it. So a file is taken twice only if it is named by two paths that
begin differently, or by one that steps up.
-/
namespace MessageKeys

def World.isFile (world : World) (path : Path) : Bool :=
  world.tree.kind? world.working path = some .file

namespace SourceFiles

variable {world after : World} {words : List Text} {written : Text} {path other : Path}
  {paths more result : List Path}

/-- No two of the paths take the same steps. -/
def Distinct (paths : List Path) : Prop :=
  paths.Pairwise fun a b => ¬ a.sameAs b = true

theorem Distinct.addNew (h : Distinct paths) (more : List Path) : Distinct (addNew paths more) := by
  induction more generalizing paths with
  | nil => exact h
  | cons path more ih =>
    refine ih ?_
    split
    · exact h
    · next hnew =>
      refine List.pairwise_append.mpr ⟨h, List.pairwise_singleton _ _, fun other ho added ha => ?_⟩
      obtain rfl := List.mem_singleton.mp ha
      exact fun hsame => hnew (List.any_eq_true.mpr ⟨other, ho, hsame⟩)

theorem not_slash_of_file (h : world.tree.kind? world.working path = some .file) :
    path.text.getLast? ≠ some '/' := by
  obtain ⟨location, node, hlocate, hnode, hkind⟩ := Tree.exists_locate_of_kind? h
  cases node with
  | folder => cases hkind
  | file content => exact Tree.not_slash_of_file hlocate hnode

section sample

end sample

end SourceFiles

end MessageKeys
