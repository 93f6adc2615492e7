import MessageKeys.Text.Basic

/-!
# Names not yet taken

A search runs through the names that a numbering gives from some index on and takes the first one
that is free. Among one name more than there are taken ones a free one must stand, as long as the
numbering repeats none, so the search looks no further than that.
-/
namespace MessageKeys.Markup

/-- The least index from `start` on whose name is free, looked for among `count` of them. -/
def firstFree (free : Text → Bool) (name : Nat → Text) (start count : Nat) : Nat :=
  ((List.range' start count).find? fun index => free (name index)).getD (start + count)

/-- `key_0`, `key_1`, and so on. -/
def numbered (key : Text) (index : Nat) : Text :=
  key ++ '_' :: Text.ofNat index

/-- `key_multi`, `key_multi_1`, `key_multi_2`, and so on. -/
def numberedMulti (key : Text) : Nat → Text
  | 0 => key ++ "_multi".toList
  | index + 1 => numbered (key ++ "_multi".toList) (index + 1)

/-- The first of `key_start`, `key_(start+1)`, … that is not taken. -/
def freshIndex (taken : List Text) (key : Text) (start : Nat) : Nat :=
  firstFree (fun name => !taken.contains name) (numbered key) start (taken.length + 1)

/-- The first multi name of the first owner that is not taken, or is one of the owners itself. -/
def freshMulti (taken owners : List Text) (first : Text) : Text :=
  numberedMulti first
    (firstFree (fun name => !taken.contains name || owners.contains name)
      (numberedMulti first) 0 (taken.length + 1))

end MessageKeys.Markup
