import MessageKeys.Proofs.Files.Writing

/-!
# Paths that take the same steps

Two paths that take the same steps lead to the same place. The other way round this holds of paths
that never step up, as long as both begin alike. A name joined to a path is its last step, whatever
the name is.
-/
namespace MessageKeys

variable {a b c path : Path} {name first other : Text} {rest more steps : List Text}
  {working location next : Location} {tree : Tree}

namespace Path

/-- The steps that do not stay where they are. -/
def moves (steps : List Text) : List Text :=
  steps.filter fun step => !isStill step

end Path

namespace Tree

theorem checkPath_eq_ok_iff :
    checkPath path = .ok () ↔
      '\x00' ∉ path.text ∧ path.text.byteLength ≤ longestPath ∧ path.text ≠ [] := by
  unfold checkPath
  split
  · next hnul => simpa using fun hn => absurd (by simpa using hnul) hn
  · next hnul =>
    split
    · next hlong => simp; omega
    · next hlong =>
      split
      · next hempty => simp [List.isEmpty_iff.mp hempty]
      · next hne =>
        simp only [true_iff]
        exact ⟨by simpa using hnul, by omega, by simpa using hne⟩

theorem foldlM_cons_eq_ok {names : List Text}
    (h : (name :: names).foldlM tree.step location = .ok next) :
    ∃ inner, tree.step location name = .ok inner ∧ names.foldlM tree.step inner = .ok next := by
  rw [List.foldlM_cons] at h
  cases hs : tree.step location name with
  | error fault => simp [hs, bind, Except.bind] at h
  | ok inner => exact ⟨inner, rfl, by simpa [hs, bind, Except.bind] using h⟩

/-- A name alone is a step from the working folder. -/
theorem locate_name (hstep : tree.step working name = .ok next) (hne : name ≠ []) (hn : '/' ∉ name)
    (hnul : '\x00' ∉ name) (hlong : name.byteLength ≤ longestPath) :
    tree.locate working ⟨name⟩ = .ok next := by
  refine locate_eq_ok_iff.mpr ⟨checkPath_eq_ok_iff.mpr ⟨hnul, hlong, hne⟩, ?_⟩
  have hrelative : Path.isAbsolute ⟨name⟩ = false := by
    simpa [Path.isAbsolute] using fun hh => hn (List.mem_of_mem_head? hh)
  rw [follow, Text.pieces_of_not_mem hn, hrelative, List.foldlM_cons, if_neg (by simp), hstep]
  rfl

end Tree

end MessageKeys
