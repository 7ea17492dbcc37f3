/-!
Bytes read as UTF-8, whether or not they encode a text. Reading the encoding of a text gives
its characters.
-/

namespace TableStore.Text

/-- Reads on from a position. What has been read is kept latest first. -/
def readUtf8From (bytes : ByteArray) (start : Nat) (read : List (Option Char)) :
    List (Option Char) :=
  if start < bytes.size then
    match bytes.utf8DecodeChar? start with
    | some c => readUtf8From bytes (start + c.utf8Size) (some c :: read)
    | none => readUtf8From bytes (start + 1) (none :: read)
  else read
termination_by bytes.size - start
decreasing_by
  · have := c.utf8Size_pos; omega
  · omega

/-- The characters that bytes encode, with `none` for every byte that belongs to none. -/
def readUtf8 (bytes : ByteArray) : List (Option Char) := (readUtf8From bytes 0 []).reverse

def characters (text : String) : List (Option Char) := text.toList.map some

theorem utf8DecodeChar?_append (front rest : List Char) (c : Char) :
    (front ++ c :: rest).utf8Encode.utf8DecodeChar? front.utf8Encode.size = some c := by
  rw [ByteArray.utf8DecodeChar?_eq_utf8DecodeChar?_extract, List.utf8Encode_append,
    ByteArray.extract_append_eq_right rfl ByteArray.size_append]
  exact List.utf8DecodeChar?_utf8Encode_cons

theorem size_utf8Encode_snoc (front : List Char) (c : Char) :
    (front ++ [c]).utf8Encode.size = front.utf8Encode.size + c.utf8Size := by
  simp [List.utf8Encode_append, ByteArray.size_append, List.utf8Encode_singleton]

theorem readUtf8From_utf8Encode (front rest : List Char) (read : List (Option Char)) :
    readUtf8From (front ++ rest).utf8Encode front.utf8Encode.size read =
      (rest.map some).reverse ++ read := by
  induction rest generalizing front read with
  | nil => rw [readUtf8From]; simp
  | cons c rest ih =>
      have h := utf8DecodeChar?_append front rest c
      have hlt := ByteArray.lt_size_of_isSome_utf8DecodeChar? (by rw [h]; rfl)
      have hih := ih (front ++ [c]) (some c :: read)
      rw [List.append_assoc, size_utf8Encode_snoc] at hih
      rw [readUtf8From, if_pos hlt, h]
      simpa using hih

theorem readUtf8_toUTF8 (text : String) : readUtf8 text.toUTF8 = characters text := by
  have h := readUtf8From_utf8Encode [] text.toList []
  rw [List.nil_append, String.utf8Encode_toList] at h
  rw [List.utf8Encode_nil, ByteArray.size_empty] at h
  simp [readUtf8, characters, String.toUTF8_eq_toByteArray, h]

end TableStore.Text
