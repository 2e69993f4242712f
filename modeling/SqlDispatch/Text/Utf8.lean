set_option autoImplicit false

/-!
Texts as bytes in UTF-8. Every text has bytes, and reading them gives it back; bytes that no text
has are not read.
-/

namespace SqlDispatch.Text

def encode (text : String) : List UInt8 := text.toList.flatMap String.utf8EncodeChar

def decode (bytes : List UInt8) : Option String := String.fromUTF8? ⟨bytes.toArray⟩

theorem toByteArray_eq (text : String) : text.toByteArray = ⟨(encode text).toArray⟩ := by
  rw [← String.utf8Encode_toList]
  apply ByteArray.ext
  simp [encode, List.utf8Encode]

theorem decode_encode (text : String) : decode (encode text) = some text := by
  rw [decode, ← toByteArray_eq]
  simp [String.fromUTF8?, String.fromUTF8, text.isValidUTF8]

theorem eq_encode_of_decode {bytes : List UInt8} {text : String} (h : decode bytes = some text) :
    bytes = encode text := by
  unfold decode String.fromUTF8? at h
  split at h
  · obtain rfl := Option.some.inj h
    simpa [String.fromUTF8] using toByteArray_eq (String.fromUTF8 ⟨bytes.toArray⟩ _)
  · cases h

theorem encode_append (a b : String) : encode (a ++ b) = encode a ++ encode b := by
  simp [encode]

/-- The text of bytes without the last `lost` of them, whose place a replacement character takes. -/
def decodeLosing (bytes : List UInt8) (lost : Nat) : Option String :=
  (decode (bytes.take (bytes.length - lost))).map fun text =>
    if lost = 0 then text else text ++ "\ufffd"

/-- Reads the first bytes of a text, which may end inside a character. -/
def decodeFront (bytes : List UInt8) : String :=
  ((List.range 4).findSome? (decodeLosing bytes)).getD "\ufffd"

example : decodeFront [0x61, 0xC3] = "a\ufffd" := by decide +kernel
example : decodeFront [0x61, 0xC3, 0xA9] = "aé" := by decide +kernel

end SqlDispatch.Text
