import MessageKeys.Markup.Layout

/-!
# References

Once its text is kept in a key file, a marked part is written `~[text:key]`. Plain text and the
tail of the document stay as they are.
-/
namespace MessageKeys.Markup

def reference (key : Text) : Text :=
  "~[text:".toList ++ key ++ closeBracket

namespace Layout

/-- The document with each marker replaced by the reference to its key. -/
def withReferences (layout : Layout) : Text :=
  (layout.parts.flatMap fun part => part.before ++ reference part.key) ++ layout.tail

end Layout

def materialize (document : Text) : Text :=
  (Layout.ofText document).withReferences

end MessageKeys.Markup
