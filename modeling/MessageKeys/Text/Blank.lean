import MessageKeys.Text.Basic

/-!
# White space

The characters with the Unicode property White_Space, and the removal of such characters at both
ends of a text. Zero-width characters and the byte order mark do not have the property.
-/
namespace MessageKeys

/-- The Unicode property White_Space. -/
def isBlank (c : Char) : Bool :=
  let n := c.toNat
  (0x9 ≤ n && n ≤ 0xD) || n == 0x20 || n == 0x85 || n == 0xA0 || n == 0x1680 ||
    (0x2000 ≤ n && n ≤ 0x200A) || n == 0x2028 || n == 0x2029 || n == 0x202F || n == 0x205F ||
    n == 0x3000

namespace Text

def trimStart (text : Text) : Text :=
  text.dropWhile isBlank

def trimEnd (text : Text) : Text :=
  (text.reverse.dropWhile isBlank).reverse

/-- Takes away the white space at both ends. -/
def trim (text : Text) : Text :=
  trimEnd (trimStart text)

end Text
end MessageKeys
