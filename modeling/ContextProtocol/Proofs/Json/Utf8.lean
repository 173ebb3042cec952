import ContextProtocol.Json.Symbol

/-!
# Bytes of a text

A message is written as a text and sent as its bytes. The bytes of a text have the symbols of that
text, so no byte strays and the readers of texts and of bytes see the same.

Results:
* `collect_utf8Encode`: behind any bytes, the symbols of encoded characters are those characters.
* `ofBytes_toUTF8`: the symbols of the bytes of a text are the symbols of the text.
-/
namespace ContextProtocol.Symbol

theorem size_utf8Encode_singleton (c : Char) : [c].utf8Encode.size = c.utf8Size := by
  simp [List.utf8Encode]

theorem utf8DecodeChar?_append (pre : ByteArray) (c : Char) (cs : List Char) :
    (pre ++ (c :: cs).utf8Encode).utf8DecodeChar? pre.size = some c := by
  rw [ByteArray.utf8DecodeChar?_eq_utf8DecodeChar?_extract,
    ByteArray.extract_append_eq_right rfl ByteArray.size_append, List.utf8DecodeChar?_utf8Encode_cons]

/-- Behind the bytes that were read before, characters are found one by one. -/
theorem collect_utf8Encode (cs : List Char) : ∀ (pre : ByteArray) (found : List Symbol),
    collect (pre ++ cs.utf8Encode) pre.size found = found.reverse ++ cs.map .char := by
  induction cs with
  | nil =>
    intro pre found
    rw [collect, dif_neg (by simp)]
    simp
  | cons c cs ih =>
    intro pre found
    have hsize : pre.size < (pre ++ (c :: cs).utf8Encode).size := by
      have := c.utf8Size_pos
      rw [ByteArray.size_append, List.utf8Encode_cons, ByteArray.size_append,
        size_utf8Encode_singleton]
      omega
    have hsplit : pre ++ (c :: cs).utf8Encode = (pre ++ [c].utf8Encode) ++ cs.utf8Encode := by
      rw [List.utf8Encode_cons, ByteArray.append_assoc]
    have hpos : pre.size + c.utf8Size = (pre ++ [c].utf8Encode).size := by
      rw [ByteArray.size_append, size_utf8Encode_singleton]
    rw [collect, dif_pos hsize]
    simp only [utf8DecodeChar?_append]
    rw [hsplit, hpos, ih]
    simp

/-- The bytes of a text have the symbols of the text. -/
theorem ofBytes_toUTF8 (text : String) : ofBytes text.toUTF8 = ofString text := by
  have h := collect_utf8Encode text.toList ByteArray.empty []
  rw [ByteArray.empty_append, String.utf8Encode_toList] at h
  exact h

end ContextProtocol.Symbol
