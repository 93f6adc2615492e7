import MessageKeys.Text.Basic

/-!
# Text as bytes

Files and answers are bytes; they are read as UTF-8, which may fail, and written as UTF-8, which
never does. Reading what was written gives the text back.
-/
namespace MessageKeys.Text

/-- The text that the bytes spell in UTF-8, if they spell any. -/
def ofBytes? (bytes : ByteArray) : Option Text :=
  (String.fromUTF8? bytes).map String.toList

def toBytes (text : Text) : ByteArray :=
  (String.ofList text).toUTF8

theorem ofBytes?_toBytes (text : Text) : ofBytes? (toBytes text) = some text := by
  have h : (String.ofList text).toUTF8.IsValidUTF8 := (String.ofList text).isValidUTF8
  rw [ofBytes?, toBytes, String.fromUTF8?, dif_pos h]
  exact congrArg some String.toList_ofList

/-- The number of bytes the text takes in UTF-8. -/
def byteLength (text : Text) : Nat :=
  text.foldr (fun c length => c.utf8Size + length) 0

@[simp] theorem byteLength_append (a b : Text) :
    byteLength (a ++ b) = byteLength a + byteLength b := by
  induction a with
  | nil => simp [byteLength]
  | cons c a ih => simp only [byteLength, List.cons_append, List.foldr_cons] at ih ⊢; omega

end MessageKeys.Text
