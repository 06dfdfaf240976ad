import RomListing.Proofs.Text.Ascii

/-! Well-formed bytes, as texts are made of. The first byte of a character tells how many bytes the
character has, and no other byte looks like a first one, so bytes that end in the midst of a character
are not well-formed, whatever comes before it. -/

namespace RomListing

theorem textBytes_eq_iff {text : String} {bytes : List UInt8} :
    textBytes text = bytes ↔ text.toByteArray = bytes.toByteArray := by
  rw [textBytes, ByteArray.ext_iff, List.data_toByteArray, ← Array.toList_inj]

/-- Bytes are well-formed exactly if they are the bytes of a text. -/
theorem isValidUTF8_iff {bytes : List UInt8} :
    bytes.toByteArray.IsValidUTF8 ↔ ∃ text, textBytes text = bytes := by
  constructor
  · intro h
    exact ⟨String.ofByteArray _ h, textBytes_eq_iff.mpr rfl⟩
  · rintro ⟨text, htext⟩
    exact textBytes_eq_iff.mp htext ▸ text.isValidUTF8

theorem fromUTF8?_eq_some_iff {bytes : List UInt8} {text : String} :
    String.fromUTF8? bytes.toByteArray = some text ↔ textBytes text = bytes := by
  unfold String.fromUTF8?
  split
  · rw [Option.some_inj, ← String.toByteArray_inj, textBytes_eq_iff, String.fromUTF8, eq_comm]
  · rename_i hinvalid
    simp only [reduceCtorEq, false_iff]
    exact fun htext => hinvalid (isValidUTF8_iff.mpr ⟨text, htext⟩)

/-- Well-formed bytes that start with the first byte of a character hold this character. -/
theorem utf8Size_le_of_isValidUTF8 {c : Char} {count : Nat} (hpos : 1 ≤ count)
    (h : ((String.utf8EncodeChar c).take count).toByteArray.IsValidUTF8) : c.utf8Size ≤ count := by
  obtain ⟨chars, hchars⟩ := h
  have hlength : ((String.utf8EncodeChar c).take count).length ≤ count := List.length_take_le _ _
  cases chars with
  | nil =>
      have hsize := congrArg ByteArray.size hchars
      have := c.utf8Size_pos
      rw [List.size_toByteArray, List.length_take, String.length_utf8EncodeChar] at hsize
      simp at hsize
      omega
  | cons d chars =>
      -- The character in front is found in all bytes of `c`, so it is `c`.
      rw [List.utf8Encode_cons] at hchars
      have hall : [c].utf8Encode = [d].utf8Encode ++ (chars.utf8Encode ++
          ((String.utf8EncodeChar c).drop count).toByteArray) := by
        rw [← ByteArray.append_assoc, ← hchars, ← List.toByteArray_append, List.take_append_drop,
          List.utf8Encode_singleton]
      have hdecode := congrArg (fun bytes => ByteArray.utf8DecodeChar? bytes 0) hall
      rw [List.utf8DecodeChar?_utf8Encode_singleton, List.utf8DecodeChar?_utf8Encode_singleton_append,
        Option.some_inj] at hdecode
      have hsize := congrArg ByteArray.size hchars
      rw [List.size_toByteArray, ByteArray.size_append, List.utf8Encode_singleton,
        List.size_toByteArray, String.length_utf8EncodeChar, ← hdecode] at hsize
      omega

/-- In well-formed bytes, the first byte of a character starts well-formed bytes. -/
theorem isValidUTF8_behind {before behind : List UInt8} {byte : UInt8} (hbyte : byte.IsUTF8FirstByte)
    (h : (before ++ byte :: behind).toByteArray.IsValidUTF8) :
    (byte :: behind).toByteArray.IsValidUTF8 := by
  let text := String.ofByteArray _ h
  let place : String.Pos.Raw := ⟨before.length⟩
  have hsize : text.utf8ByteSize = before.length + (byte :: behind).length := by
    change ByteArray.size _ = _
    rw [List.size_toByteArray, List.length_append]
  have hplace : place < text.rawEndPos := by
    change before.length < text.utf8ByteSize
    rw [hsize, List.length_cons]
    omega
  have hfirst : text.getUTF8Byte place hplace = byte := by
    change (List.toByteArray _)[before.length] = byte
    rw [List.getElem_toByteArray]
    simp
  have hvalid : place.IsValid text :=
    String.Pos.Raw.isValid_iff_isUTF8FirstByte.mpr (.inr ⟨hplace, hfirst ▸ hbyte⟩)
  have hextract : text.toByteArray.extract before.length text.utf8ByteSize =
      (byte :: behind).toByteArray := by
    change ByteArray.extract (List.toByteArray _) _ _ = _
    rw [List.toByteArray_append]
    apply ByteArray.extract_append_eq_right
    · rw [List.size_toByteArray]
    · rw [hsize, List.size_toByteArray, List.size_toByteArray]
  rw [← hextract]
  exact (String.Pos.Raw.isValid_iff_isValidUTF8_extract_utf8ByteSize.mp hvalid).2

/-- Bytes that end in the midst of a character are not well-formed. -/
theorem not_isValidUTF8_of_cut (before : List UInt8) {c : Char} {count : Nat} (hpos : 1 ≤ count)
    (hcut : count < c.utf8Size) :
    ¬(before ++ (String.utf8EncodeChar c).take count).toByteArray.IsValidUTF8 := by
  intro hvalid
  have hfirst : ∃ byte behind, (String.utf8EncodeChar c).take count = byte :: behind ∧
      byte.IsUTF8FirstByte := by
    obtain ⟨more, hmore⟩ : ∃ more, count = more + 1 := Nat.exists_eq_add_of_le' hpos
    have hbyte := UInt8.isUTF8FirstByte_getElem_zero_utf8EncodeChar (c := c)
    cases hbytes : String.utf8EncodeChar c with
    | nil => exact absurd hbytes String.utf8EncodeChar_ne_nil
    | cons byte behind =>
        simp only [hbytes, List.getElem_cons_zero] at hbyte
        exact ⟨byte, behind.take more, by rw [hmore, List.take_succ_cons], hbyte⟩
  obtain ⟨byte, behind, hbytes, hbyte⟩ := hfirst
  rw [hbytes] at hvalid
  have hrest := isValidUTF8_behind hbyte hvalid
  rw [← hbytes] at hrest
  have := utf8Size_le_of_isValidUTF8 hpos hrest
  omega

end RomListing
