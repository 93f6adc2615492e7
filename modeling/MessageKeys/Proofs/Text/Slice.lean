import MessageKeys.Text.Bytes

/-!
# Texts cut at byte offsets

A text in UTF-8 can be cut at a byte only where a character begins or where the text ends. The
lengths of its beginnings are such offsets.
-/
namespace MessageKeys.Text

theorem toBytes_append (a b : Text) : toBytes (a ++ b) = a.toBytes ++ b.toBytes := by
  rw [toBytes, String.ofList_append, String.toUTF8_eq_toByteArray, String.toByteArray_append]
  rfl

theorem size_toBytes (text : Text) : text.toBytes.size = text.byteLength := by
  induction text with
  | nil => rfl
  | cons c text ih =>
    have hone : (toBytes [c]).size = c.utf8Size := by
      rw [toBytes, String.toUTF8_eq_toByteArray, String.size_toByteArray,
        ← String.singleton_eq_ofList, String.utf8ByteSize_singleton]
    rw [← List.singleton_append, toBytes_append, ByteArray.size_append, hone, ih,
      byteLength_append]
    rfl

/-- Whether a text can be cut at a byte offset. -/
def isBoundary (text : Text) (offset : Nat) : Bool :=
  String.Pos.Raw.isValid (String.ofList text) ⟨offset⟩

/-- The text from one byte offset to another, if it can be cut at both. -/
def slice? (text : Text) (start stop : Nat) : Option Text :=
  if start ≤ stop ∧ text.isBoundary start ∧ text.isBoundary stop then
    ofBytes? (text.toBytes.extract start stop)
  else none

theorem isBoundary_append (front back : Text) : isBoundary (front ++ back) front.byteLength := by
  rw [isBoundary, String.Pos.Raw.isValid_eq_true_iff, String.Pos.Raw.isValid_iff_exists_append]
  refine ⟨String.ofList front, String.ofList back, String.ofList_append, ?_⟩
  rw [← size_toBytes]
  rfl

/-- A piece of a text is cut out at the places where it begins and ends. -/
theorem slice?_append (front piece back : Text) :
    slice? (front ++ (piece ++ back)) front.byteLength (front.byteLength + piece.byteLength) =
      some piece := by
  have hstart : isBoundary (front ++ (piece ++ back)) front.byteLength := isBoundary_append _ _
  have hstop : isBoundary (front ++ (piece ++ back)) (front.byteLength + piece.byteLength) := by
    rw [← List.append_assoc, ← byteLength_append]
    exact isBoundary_append _ _
  have hbytes : (toBytes (front ++ (piece ++ back))).extract front.byteLength
      (front.byteLength + piece.byteLength) = piece.toBytes := by
    rw [toBytes_append, toBytes_append, ← size_toBytes, ← size_toBytes,
      ← Nat.add_zero front.toBytes.size, Nat.add_assoc, ByteArray.extract_append_size_add,
      Nat.zero_add]
    exact ByteArray.extract_append_eq_left rfl
  rw [slice?, if_pos ⟨Nat.le_add_right _ _, hstart, hstop⟩, hbytes, ofBytes?_toBytes]

end MessageKeys.Text
