import RomListing.Proofs.Lines

/-! The format of a line. Whatever its text is, a line falls into text and comment at its last `;$`, and
the comment spells its address in one way only, so two lines that look alike show the same address and
texts that differ in nothing but blanks at their ends. -/

namespace RomListing

/-- The parts of a text in front of its last `;$` and behind it. -/
structure CutAtLastMark (cs before behind : List Char) : Prop where
  eq_append : cs = before ++ ';' :: '$' :: behind
  last : ∀ others rest, cs = others ++ ';' :: '$' :: rest → others.length ≤ before.length

namespace CutAtLastMark

variable {cs before behind others rest : List Char}

/-- Without a further semicolon behind it, a mark is the last one. -/
theorem of_not_mem (h : ';' ∉ behind) :
    CutAtLastMark (before ++ ';' :: '$' :: behind) before behind := by
  refine ⟨rfl, fun others rest heq => ?_⟩
  by_contra hlength
  obtain ⟨count, hcount⟩ : ∃ count, others.length = before.length + (count + 1) :=
    Nat.exists_eq_add_of_lt (by omega)
  -- The semicolon of a later mark would stand among what follows the semicolon of this one.
  have hmark : ('$' :: behind)[count]? = some ';' := by
    calc ('$' :: behind)[count]?
        = (before ++ ';' :: '$' :: behind)[others.length]? := by
          rw [hcount, List.getElem?_append_right (by omega), Nat.add_sub_cancel_left,
            List.getElem?_cons_succ]
      _ = (others ++ ';' :: '$' :: rest)[others.length]? := by rw [heq]
      _ = some ';' := by simp
  rcases List.mem_cons.mp (List.mem_of_getElem? hmark) with hdollar | hmem
  · exact absurd hdollar (by decide)
  · exact h hmem

theorem unique (h : CutAtLastMark cs before behind) (hother : CutAtLastMark cs others rest) :
    before = others ∧ behind = rest := by
  have hlength : before.length = others.length :=
    Nat.le_antisymm (hother.last before behind h.eq_append) (h.last others rest hother.eq_append)
  obtain ⟨hbefore, hbehind⟩ := List.append_inj (h.eq_append.symm.trans hother.eq_append) hlength
  rw [List.cons_inj_right, List.cons_inj_right] at hbehind
  exact ⟨hbefore, hbehind⟩

end CutAtLastMark

/-- Lowercase digits that spell a number: at least as many as `width`, and more only without a zero in
front. -/
structure Hex.Spells (width n : Nat) (digits : List Char) : Prop where
  isDigit : ∀ c ∈ digits, Reassembly.isDigit c
  width_le : width ≤ digits.length
  head : width < digits.length → digits.head? ≠ some '0'
  number : Reassembly.numberOf? digits = some n

theorem Hex.spells_digits {width : Nat} (hpos : 1 ≤ width) (n : Nat) :
    Spells width n (digits width n) where
  isDigit := fun _ hc => isDigit_of_mem_digits hc
  width_le := length_digits width n ▸ Nat.le_max_left _ _
  head := head?_digits hpos
  number := numberOf?_digits width n

namespace Line

theorem utf8ByteSize_blanks (count : Nat) : (blanks count).utf8ByteSize = count := by
  have hascii : ∀ c ∈ (blanks count).toList, c.toNat < 128 := by
    intro c hc
    rw [blanks, String.toList_ofList] at hc
    rw [List.eq_of_mem_replicate hc]
    decide
  rw [utf8ByteSize_eq_length hascii, blanks, String.toList_ofList, List.length_replicate]

/-- A line ends at its column, or behind the comment if text and comment reach further. -/
theorem utf8ByteSize_render (width : Nat) (text : String) (address : UInt32) :
    (render width text address).utf8ByteSize =
      max width (text.utf8ByteSize + (comment address).utf8ByteSize) := by
  rw [render, String.utf8ByteSize_append, String.utf8ByteSize_append, utf8ByteSize_blanks, padding]
  omega

theorem cutAtLastMark_render (width : Nat) (text : String) (address : UInt32) :
    CutAtLastMark (render width text address).toList
      (text.toList ++ List.replicate (padding width text address) ' ')
      (Hex.digits 4 address.toNat) := by
  rw [toList_render]
  exact .of_not_mem (not_mem_digits (by decide) 4 _)

theorem format?_eq_some_iff {width : Nat} {text line : String} {address : UInt32} :
    format? width text address = some line ↔
      padding width text address ≤ maxPadding ∧ line = render width text address := by
  rw [format?, Option.ite_none_right_eq_some, Option.some_inj, eq_comm (a := line)]

end Line

/-- **The line format.** A line is as wide as its column, or as text and comment together. Its last `;$`
starts the comment, so it tells its address, and its text up to blanks at the end. -/
theorem line_format_unambiguous :
    (∀ (width : Nat) (text : String) (address : UInt32), Line.padding width text address ≤ 65535 →
      ∃ line before digits, Line.format? width text address = some line ∧
        line.utf8ByteSize = max width (text.utf8ByteSize + (Line.comment address).utf8ByteSize) ∧
        CutAtLastMark line.toList before digits ∧
        (Line.comment address).toList = ';' :: '$' :: digits ∧
        Hex.Spells 4 address.toNat digits ∧
        ∃ count, before = text.toList ++ List.replicate count ' ') ∧
    ∀ (width otherWidth : Nat) (text otherText : String) (address otherAddress : UInt32)
      (line : String), Line.format? width text address = some line →
      Line.format? otherWidth otherText otherAddress = some line →
      address = otherAddress ∧
        Reassembly.dropBlanks text.toList = Reassembly.dropBlanks otherText.toList := by
  constructor
  · intro width text address hpadding
    exact ⟨_, _, _, Line.format?_eq_some_iff.mpr ⟨hpadding, rfl⟩,
      Line.utf8ByteSize_render width text address, Line.cutAtLastMark_render width text address,
      Line.toList_comment address, Hex.spells_digits (by decide) _, _, rfl⟩
  · intro width otherWidth text otherText address otherAddress line hline hother
    have hcut := Line.cutAtLastMark_render width text address
    have hotherCut := Line.cutAtLastMark_render otherWidth otherText otherAddress
    rw [← (Line.format?_eq_some_iff.mp hline).2] at hcut
    rw [← (Line.format?_eq_some_iff.mp hother).2] at hotherCut
    obtain ⟨hbefore, hdigits⟩ := hcut.unique hotherCut
    constructor
    · exact UInt32.toNat_inj.mp (Hex.digits_inj hdigits)
    · rw [← Reassembly.dropBlanks_append text.toList, hbefore, Reassembly.dropBlanks_append]

/-- A text that holds a mark and ends in a blank is cut off at the later mark, in front of five digits. A
line does not tell the blanks of its text from its own. -/
theorem line_format_of_marked_text :
    (∃ line before digits, Line.format? 20 "é;$1 " 0x14000 = some line ∧ line.utf8ByteSize = 20 ∧
      CutAtLastMark line.toList before digits ∧ Hex.Spells 4 0x14000 digits ∧
      ∃ count, before = "é;$1 ".toList ++ List.replicate count ' ') ∧
    Line.format? 12 "nop" 0 = some "nop   ;$0000" ∧ Line.format? 0 "nop   " 0 = some "nop   ;$0000" ∧
      Reassembly.dropBlanks "nop".toList = Reassembly.dropBlanks "nop   ".toList := by
  obtain ⟨hmade, hsame⟩ := line_format_unambiguous
  constructor
  · obtain ⟨line, before, digits, hline, hsize, hcut, _, hspells, hbefore⟩ :=
      hmade 20 "é;$1 " 0x14000 (by decide)
    have hwidth : max 20 ("é;$1 ".utf8ByteSize + (Line.comment 0x14000).utf8ByteSize) = 20 := by
      decide
    exact ⟨line, before, digits, hline, hsize.trans hwidth, hcut, hspells, hbefore⟩
  · have hshort : Line.format? 12 "nop" 0 = some "nop   ;$0000" := by decide
    have hlong : Line.format? 0 "nop   " 0 = some "nop   ;$0000" := by decide
    exact ⟨hshort, hlong, (hsame _ _ _ _ _ _ _ hshort hlong).2⟩

end RomListing
