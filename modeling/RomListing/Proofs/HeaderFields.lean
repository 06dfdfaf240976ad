import RomListing.Proofs.CheckedReads
import RomListing.Proofs.Text.Utf8
import RomListing.Rom.Header

/-! The readable fields of a header. The title is the text that the title field holds up to its first
zero; it is there only if these bytes are well-formed, so neither a zero nor the end of the field leaves
half a character behind. What comes after the zero does not matter. All fields are read in range. -/

namespace RomListing

namespace Rom

/-- The first bytes of the title field. -/
def titleField (rom : Rom) (count : Nat) : List UInt8 :=
  (rom.bytes.extract Header.title (Header.title + count)).toList

/-- The place of the first zero in the title field, or the size of the field. -/
def titleLength (rom : Rom) : Nat := ((rom.titleField 16).findIdx? (· == 0)).getD 16

/-- The text of a field up to its first zero, with the read of it checked. -/
def checkedText (field : List UInt8) : Except RangeError (Option String) := do
  let count := (field.findIdx? (· == 0)).getD field.length
  return String.fromUTF8? (← readSpan field ⟨0, count⟩).toByteArray

theorem checkedText_eq (field : List UInt8) :
    checkedText field = .ok (String.fromUTF8? (field.takeWhile (· != 0)).toByteArray) := by
  have hzero : (fun byte : UInt8 => !(byte != 0)) = (· == 0) := by
    funext byte
    rw [bne, Bool.not_not]
  have hwhile : field.takeWhile (· != 0) = field.take (field.findIdx (· == 0)) := by
    rw [List.takeWhile_eq_take_findIdx_not, hzero]
  have hread : readSpan field ⟨0, field.findIdx (· == 0)⟩ = .ok (field.takeWhile (· != 0)) := by
    rw [readSpan_eq_ok (Nat.zero_le _) List.findIdx_le_length, hwhile, List.extract_eq_take_drop,
      List.drop_zero, Nat.sub_zero]
  rw [checkedText, ← List.findIdx_eq_getD_findIdx?, bind_of_eq_ok hread]
  rfl

/-- The title, with all reads checked. -/
def checkedTitle (rom : Rom) : Except RangeError (Option String) :=
  match rom.headerRange with
  | none => .ok none
  | some _ => do checkedText (← rom.slice ⟨Header.title, Header.titleStop⟩).toList

/-- What a byte of the header stands for, with the read of it checked. -/
def checkedName (rom : Rom) (offset : Nat) (name : UInt8 → String) :
    Except RangeError (Option String) :=
  match rom.headerRange with
  | none => .ok none
  | some _ => do return some (name (← rom.byteAt offset))

variable {rom : Rom}

theorem headerRange_eq_some {span : Span} (h : rom.headerRange = some span) :
    Header.stop ≤ rom.size := by
  rw [headerRange, Option.ite_none_right_eq_some] at h
  exact h.1.2

theorem size_of_isSome_headerRange (h : rom.headerRange.isSome = true) : Header.stop ≤ rom.size := by
  obtain ⟨span, hspan⟩ := Option.isSome_iff_exists.mp h
  exact headerRange_eq_some hspan

theorem length_titleField (hsize : Header.stop ≤ rom.size) {count : Nat} (hcount : count ≤ 16) :
    (rom.titleField count).length = count := by
  have hfits : Header.title + count ≤ rom.bytes.size := by
    have hbytes : rom.bytes.size = rom.size := rfl
    simp only [Header.title, Header.stop] at hsize ⊢
    omega
  rw [titleField, Array.length_toList, Array.size_extract, Nat.min_eq_left hfits,
    Nat.add_sub_cancel_left]

theorem take_titleField {count : Nat} (hcount : count ≤ 16) :
    (rom.titleField 16).take count = rom.titleField count := by
  simp only [titleField, Array.toList_extract, List.extract_eq_take_drop, Nat.add_sub_cancel_left,
    List.take_take, Nat.min_eq_left hcount]

theorem getElem?_titleField {k count : Nat} (h : k < count) :
    (rom.titleField count)[k]? = rom.bytes[Header.title + k]? := by
  rw [titleField, Array.toList_extract, List.extract_eq_take_drop, Nat.add_sub_cancel_left,
    List.getElem?_take_of_lt h, List.getElem?_drop, Array.getElem?_toList]

/-- The title ends behind `count` bytes: none of them is zero, and there is a zero behind them unless they
fill the field. -/
structure TitleEnds (rom : Rom) (count : Nat) : Prop where
  count_le : count ≤ 16
  ne_zero : ∀ byte ∈ rom.titleField count, byte ≠ 0
  zero : count < 16 → rom.bytes[Header.title + count]? = some 0

theorem titleEnds_titleLength (hsize : Header.stop ≤ rom.size) : rom.TitleEnds rom.titleLength := by
  have hlength := length_titleField hsize (Nat.le_refl 16)
  unfold titleLength
  cases hfind : (rom.titleField 16).findIdx? (· == 0) with
  | none =>
      refine ⟨Nat.le_refl 16, fun byte hbyte => ?_, fun hlt => absurd hlt (Nat.lt_irrefl 16)⟩
      exact beq_eq_false_iff_ne.mp (List.findIdx?_eq_none_iff.mp hfind byte hbyte)
  | some count =>
      obtain ⟨hcount, hzero, hbefore⟩ := List.findIdx?_eq_some_iff_getElem.mp hfind
      rw [hlength] at hcount
      refine ⟨Nat.le_of_lt hcount, fun byte hbyte heq => ?_, fun _ => ?_⟩
      · rw [Option.getD_some, ← take_titleField (Nat.le_of_lt hcount)] at hbyte
        obtain ⟨k, hk, rfl⟩ := List.mem_take_iff_getElem.mp hbyte
        exact hbefore k (by omega) (beq_iff_eq.mpr heq)
      · rw [Option.getD_some, ← getElem?_titleField hcount,
          List.getElem?_eq_getElem (by rw [hlength]; exact hcount), eq_of_beq hzero]

theorem TitleEnds.titleBytes_eq {count : Nat} (h : rom.TitleEnds count)
    (hsize : Header.stop ≤ rom.size) : rom.titleBytes = rom.titleField count := by
  have hlength := length_titleField hsize (Nat.le_refl 16)
  have hbehind : ((rom.titleField 16).drop count).takeWhile (· != 0) = [] := by
    rcases Nat.lt_or_ge count 16 with hlt | hge
    · have hcount : count < (rom.titleField 16).length := by rwa [hlength]
      have hzero := (getElem?_titleField hlt).trans (h.zero hlt)
      rw [List.getElem?_eq_getElem hcount, Option.some_inj] at hzero
      rw [List.drop_eq_getElem_cons hcount, hzero]
      rfl
    · rw [List.drop_eq_nil_of_le (by omega)]
      rfl
  have hfield : rom.titleBytes = (rom.titleField 16).takeWhile (· != 0) := rfl
  rw [hfield, ← List.take_append_drop count (rom.titleField 16), take_titleField h.count_le,
    List.takeWhile_append_of_pos fun byte hbyte => bne_iff_ne.mpr (h.ne_zero byte hbyte), hbehind,
    List.append_nil]

theorem titleBytes_eq (hsize : Header.stop ≤ rom.size) :
    rom.titleBytes = rom.titleField rom.titleLength :=
  (titleEnds_titleLength hsize).titleBytes_eq hsize

theorem title?_of_header (h : rom.headerRange.isSome = true) :
    rom.title? = String.fromUTF8? rom.titleBytes.toByteArray := by
  obtain ⟨span, hspan⟩ := Option.isSome_iff_exists.mp h
  rw [title?, hspan, Option.bind_some]

theorem title?_eq_some_iff {text : String} : rom.title? = some text ↔
    rom.headerRange.isSome = true ∧ textBytes text = rom.titleField rom.titleLength := by
  unfold title?
  cases hheader : rom.headerRange with
  | none => simp
  | some span =>
      rw [Option.bind_some, titleBytes_eq (headerRange_eq_some hheader), fromUTF8?_eq_some_iff]
      simp

/-! ### Reads -/

variable (rom)

theorem checkedTitle_eq : rom.checkedTitle = .ok rom.title? := by
  unfold checkedTitle title?
  cases hheader : rom.headerRange with
  | none => rfl
  | some span =>
      have hstop : Header.titleStop ≤ rom.size :=
        Nat.le_trans (by decide) (headerRange_eq_some hheader)
      simp only [bind_of_eq_ok (slice_eq_ok ⟨Header.title, Header.titleStop⟩ (by decide) hstop),
        checkedText_eq, Option.bind_some]
      rfl

theorem checkedName_eq {offset : Nat} (hoffset : offset < Header.stop) (name : UInt8 → String) :
    rom.checkedName offset name =
      .ok (rom.headerRange.bind fun _ => rom.bytes[offset]?.map name) := by
  unfold checkedName
  cases hheader : rom.headerRange with
  | none => rfl
  | some span =>
      have hlt : offset < rom.size := Nat.lt_of_lt_of_le hoffset (headerRange_eq_some hheader)
      simp only [bind_of_eq_ok (byteAt_eq_ok hlt), Option.bind_some, Array.getD_eq_getD_getElem?,
        Array.getElem?_eq_getElem hlt]
      rfl

/-- A name is there exactly if the header is. -/
theorem name_eq_none_iff {offset : Nat} (hoffset : offset < Header.stop) (name : UInt8 → String) :
    (rom.headerRange.bind fun _ => rom.bytes[offset]?.map name) = none ↔ rom.headerRange = none := by
  cases hheader : rom.headerRange with
  | none => simp
  | some span =>
      have hlt : offset < rom.bytes.size := Nat.lt_of_lt_of_le hoffset (headerRange_eq_some hheader)
      simp [hlt]

end Rom

/-- **The title.** There is a title exactly if the image has a header and the field up to its first zero is
well-formed, and it is the text of these bytes. No field of the header is read out of range. -/
theorem title_is_readable_prefix (rom : Rom) :
    (rom.title?.isSome = true ↔ rom.headerRange.isSome = true ∧
      (rom.titleField rom.titleLength).toByteArray.IsValidUTF8) ∧
    (∀ text, rom.title? = some text → textBytes text = rom.titleField rom.titleLength ∧
      text.utf8ByteSize ≤ 16 ∧ '\x00' ∉ text.toList) ∧
    (∀ before c count, 1 ≤ count → count < c.utf8Size →
      rom.titleField rom.titleLength = before ++ (String.utf8EncodeChar c).take count →
      rom.title? = none) ∧
    (∀ other : Rom, rom.headerRange.isSome = true → other.headerRange.isSome = true →
      other.titleField rom.titleLength = rom.titleField rom.titleLength →
      (rom.titleLength < 16 → other.bytes[Header.title + rom.titleLength]? = some 0) →
      other.title? = rom.title?) ∧
    (rom.checkedTitle = .ok rom.title? ∧
      rom.checkedName Header.cartridgeType Header.cartridgeTypeName = .ok rom.cartridgeType? ∧
      rom.checkedName Header.destination Header.destinationName = .ok rom.destination?) ∧
    (rom.cartridgeType? = none ↔ rom.headerRange = none) ∧
    (rom.destination? = none ↔ rom.headerRange = none) := by
  have hvalid : rom.title?.isSome = true ↔ rom.headerRange.isSome = true ∧
      (rom.titleField rom.titleLength).toByteArray.IsValidUTF8 := by
    rw [Option.isSome_iff_exists]
    simp only [Rom.title?_eq_some_iff, exists_and_left, isValidUTF8_iff]
  refine ⟨hvalid, ?_, ?_, ?_, ⟨rom.checkedTitle_eq, rom.checkedName_eq (by decide) _,
    rom.checkedName_eq (by decide) _⟩, rom.name_eq_none_iff (by decide) _,
    rom.name_eq_none_iff (by decide) _⟩
  · intro text htext
    obtain ⟨hheader, hbytes⟩ := Rom.title?_eq_some_iff.mp htext
    have hends := Rom.titleEnds_titleLength (Rom.size_of_isSome_headerRange hheader)
    refine ⟨hbytes, ?_, fun hmem => hends.ne_zero 0 ?_ rfl⟩
    · have hsize : text.utf8ByteSize = (textBytes text).length := rfl
      rw [hsize, hbytes, Rom.length_titleField (Rom.size_of_isSome_headerRange hheader) hends.count_le]
      exact hends.count_le
    · rw [← hbytes, textBytes_eq]
      exact List.mem_flatMap.mpr ⟨_, hmem, by decide⟩
  · intro before c count hpos hcut hbytes
    rw [← Option.not_isSome_iff_eq_none, hvalid, hbytes]
    exact fun h => not_isValidUTF8_of_cut before hpos hcut h.2
  · intro other hheader hother hfield hzero
    have hsize := Rom.size_of_isSome_headerRange hheader
    have hends := Rom.titleEnds_titleLength hsize
    have hotherEnds : other.TitleEnds rom.titleLength :=
      ⟨hends.count_le, fun byte hbyte => hends.ne_zero byte (hfield ▸ hbyte), hzero⟩
    rw [Rom.title?_of_header hother, Rom.title?_of_header hheader,
      hotherEnds.titleBytes_eq (Rom.size_of_isSome_headerRange hother), hfield,
      hends.titleBytes_eq hsize]

/-- An image that is as long as its header needs it to be, with the given bytes in its title field and
behind it. -/
def titledImage (title : List UInt8) : Rom :=
  ⟨Array.replicate Header.title 0 ++ title.toArray ++ Array.replicate (0x1c - title.length) 0, true⟩

theorem titleField_titledImage (title : List UInt8) (count : Nat) :
    (titledImage title).titleField count =
      (title ++ List.replicate (0x1c - title.length) 0).take count := by
  have hbytes : (titledImage title).bytes.toList =
      List.replicate Header.title 0 ++ (title ++ List.replicate (0x1c - title.length) 0) := by
    simp only [titledImage, Array.toList_append, Array.toList_replicate, List.append_assoc]
  rw [Rom.titleField, Array.toList_extract, List.extract_eq_take_drop, Nat.add_sub_cancel_left,
    hbytes, List.drop_left' List.length_replicate]

/-- A title with bytes behind its zero, and one with a character that goes on behind the field. -/
theorem title_of_titledImage :
    (titledImage [0x41, 0x00, 0xff]).title?.isSome = true ∧
      (titledImage [0x41]).title? = (titledImage [0x41, 0x00, 0xff]).title? ∧
      (∀ text, (titledImage [0x41, 0x00, 0xff]).title? = some text → textBytes text = [0x41]) ∧
      (titledImage (List.replicate 15 0x41 ++ [0xc3, 0xa9])).title? = none := by
  have hlength : (titledImage [0x41, 0x00, 0xff]).titleLength = 1 := by
    rw [Rom.titleLength, titleField_titledImage]
    decide
  have hbytes : (titledImage [0x41, 0x00, 0xff]).titleField 1 = [0x41] := by
    rw [titleField_titledImage]
    rfl
  have hfull : (titledImage (List.replicate 15 0x41 ++ [0xc3, 0xa9])).titleField
      (titledImage (List.replicate 15 0x41 ++ [0xc3, 0xa9])).titleLength =
        List.replicate 15 0x41 ++ (String.utf8EncodeChar 'é').take 1 := by
    rw [Rom.titleLength, titleField_titledImage, titleField_titledImage]
    decide
  obtain ⟨hvalid, htext, _, hsame, _⟩ := title_is_readable_prefix (titledImage [0x41, 0x00, 0xff])
  obtain ⟨_, _, hcut, _⟩ :=
    title_is_readable_prefix (titledImage (List.replicate 15 0x41 ++ [0xc3, 0xa9]))
  rw [hlength, hbytes] at hvalid htext hsame
  refine ⟨hvalid.mpr ⟨by decide +kernel, ['A'], rfl⟩, ?_, fun text hsome => (htext text hsome).1, ?_⟩
  · refine hsame _ (by decide +kernel) (by decide +kernel) ?_ fun _ => by decide +kernel
    rw [titleField_titledImage]
    rfl
  · exact hcut (List.replicate 15 0x41) 'é' 1 (by decide) (by decide) hfull

end RomListing
