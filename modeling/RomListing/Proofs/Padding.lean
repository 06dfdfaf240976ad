import RomListing.Proofs.LineFormat
import RomListing.Proofs.WidthBound

/-! Listings at two widths. The width decides about the blanks in front of the comments and about
nothing else: the walk does not look at it, no text of an instruction ends in a blank or goes on in a
second line, and so the lines of two listings correspond to each other and differ in blanks only. -/

namespace RomListing

namespace Reassembly

/-- A line without the blanks right in front of its last `;$`. -/
def closeUp? (line : List Char) : Option (List Char) :=
  (cutComment? line).map fun (before, behind) => dropBlanks before ++ ';' :: '$' :: behind

/-- Text that does not end in a blank is left with its comment. -/
theorem closeUp?_render {text : String} (h : text.toList.getLast? ≠ some ' ') (width : Nat)
    (address : UInt32) : closeUp? (Line.render width text address).toList =
      some (text ++ Line.comment address).toList := by
  rw [closeUp?, Line.cutComment?_render, Option.map_some]
  simp only [dropBlanks_append, dropBlanks_eq_self h, String.toList_append, Line.toList_comment]

end Reassembly

/-- A line without its padding, and the line itself: it reaches its column if the other does not. -/
structure Padded (width : Nat) (line tight : List Char) : Prop where
  closeUp? : Reassembly.closeUp? line = some tight
  utf8ByteSize : (String.ofList line).utf8ByteSize = max width (String.ofList tight).utf8ByteSize

/-- Corresponding lines of two listings. A line that opens a bank is the same in both, and any other two
lines differ in their padding only. -/
inductive SameButPadding (width otherWidth : Nat) : List Char → List Char → Prop
  | marker {line : List Char} : Reassembly.isSection line = true →
      SameButPadding width otherWidth line line
  | code {line other tight : List Char} : Reassembly.isSection line = false →
      Reassembly.isSection other = false → Padded width line tight →
      Padded otherWidth other tight → SameButPadding width otherWidth line other

theorem IsLineText.padded {text : String} {source : List Char} (h : IsLineText text source)
    (width : Nat) (address : UInt32) :
    Padded width (Line.render width text address).toList (text ++ Line.comment address).toList where
  closeUp? := Reassembly.closeUp?_render h.getLast?_toList width address
  utf8ByteSize := by
    rw [String.ofList_toList, String.ofList_toList, Line.utf8ByteSize_render,
      String.utf8ByteSize_append]

variable {rom : Rom} {decoder : Decoder} {options : Options}

/-! ### Lines -/

/-- What holds between the line that opens a bank and itself, and between the lines of a visit at two
widths, holds between the lines of both listings, one by one. -/
theorem Rom.forall₂_lines {relation : String → String → Prop} {width otherWidth : Nat}
    (hmarker : ∀ bank, relation (Line.sectionMarker bank) (Line.sectionMarker bank))
    (hvisit : ∀ visit ∈ rom.allVisits decoder,
      relation (visit.line width) (visit.line otherWidth)) :
    List.Forall₂ relation (rom.lines decoder width) (rom.lines decoder otherWidth) := by
  refine List.rel_flatten (List.forall₂_map_left_iff.mpr (List.forall₂_map_right_iff.mpr ?_))
  refine List.forall₂_same.mpr fun bank hbank => .cons (hmarker bank) ?_
  refine List.forall₂_map_left_iff.mpr (List.forall₂_map_right_iff.mpr ?_)
  refine List.forall₂_same.mpr fun visit hmem => hvisit visit ?_
  exact (rom.mem_allVisits decoder).mpr ⟨bank, List.mem_range.mp hbank, hmem⟩

/-- Text that ends in a line feed has an empty last line. -/
theorem getLast?_ne_newline {cs : List Char} (h : [] ∉ cs.splitOn '\n') :
    cs.getLast? ≠ some '\n' := by
  intro hlast
  obtain ⟨before, rfl⟩ := List.getLast?_eq_some_iff.mp hlast
  rw [List.splitOn_append_cons_self, List.splitOn_nil] at h
  exact h (List.mem_append_right _ List.mem_cons_self)

/-- The last line of a listing has a text, and no line feed stands behind it. -/
theorem getLast?_disassemble {listing : String} (h : disassemble options rom = .ok listing) :
    listing.toList.getLast? ≠ some '\n' := by
  refine getLast?_ne_newline fun hnil => ?_
  rw [splitOn_disassemble h] at hnil
  obtain ⟨line, hline, hempty⟩ := List.mem_map.mp hnil
  rcases (rom.mem_lines decode options.width).mp hline with ⟨bank, _, rfl⟩ | ⟨visit, _, rfl⟩
  · rw [Line.toList_sectionMarker] at hempty
    simp at hempty
  · rw [Visit.line, Line.toList_render] at hempty
    simp at hempty

/-- The lines of two listings of an image correspond to each other. -/
theorem forall₂_sameButPadding {width otherWidth : Nat} {listing other : String} {policy : Policy}
    (h : disassemble { policy := policy, width := width } rom = .ok listing)
    (hother : disassemble { policy := policy, width := otherWidth } rom = .ok other) :
    List.Forall₂ (SameButPadding width otherWidth) (listing.toList.splitOn '\n')
      (other.toList.splitOn '\n') := by
  rw [splitOn_disassemble h, splitOn_disassemble hother]
  refine List.forall₂_map_left_iff.mpr (List.forall₂_map_right_iff.mpr ?_)
  refine Rom.forall₂_lines (fun bank => .marker (Line.isSection_sectionMarker bank)) ?_
  intro visit hmem
  obtain ⟨bank, _, hvisit⟩ := (rom.mem_allVisits decode).mp hmem
  obtain ⟨source, htext⟩ := isLineText_of_mem_visits hvisit
  exact .code (htext.isSection_render width visit.address)
    (htext.isSection_render otherWidth visit.address) (htext.padded width visit.address)
    (htext.padded otherWidth visit.address)

/-- **Widths only pad.** Two runs that differ in their width refuse the same error or both make a listing,
and any two corresponding lines are equal without the blanks right in front of their last `;$`. -/
theorem width_only_pads (rom : Rom) (policy : Policy) (width otherWidth : Nat)
    (h : ¬Crashes { policy := policy, width := width } rom)
    (hother : ¬Crashes { policy := policy, width := otherWidth } rom) :
    (∃ error, disassemble { policy := policy, width := width } rom = .error (.undefined error) ∧
      disassemble { policy := policy, width := otherWidth } rom = .error (.undefined error)) ∨
    ∃ listing other, disassemble { policy := policy, width := width } rom = .ok listing ∧
      disassemble { policy := policy, width := otherWidth } rom = .ok other ∧
      List.Forall₂ (SameButPadding width otherWidth) (listing.toList.splitOn '\n')
        (other.toList.splitOn '\n') ∧
      listing.toList.getLast? ≠ some '\n' ∧ other.toList.getLast? ≠ some '\n' := by
  have hwide := mt crashes_iff.mpr h
  have hotherWide := mt crashes_iff.mpr hother
  cases hrefusal : (rom.allVisits decode).findSome? (Visit.refusal? policy) with
  | some error =>
      exact .inl ⟨error, disassembleWith_of_refused hwide hrefusal,
        disassembleWith_of_refused hotherWide hrefusal⟩
  | none =>
      have hrun := disassembleWith_of_not_refused hwide hrefusal
      have hotherRun := disassembleWith_of_not_refused hotherWide hrefusal
      exact .inr ⟨_, _, hrun, hotherRun, forall₂_sameButPadding hrun hotherRun,
        getLast?_disassemble hrun, getLast?_disassemble hotherRun⟩

/-- A load, and behind it a stop that no zero follows. -/
def stopSnippet : Rom := ⟨#[0x3e, 0x12, 0x10, 0x01], false⟩

/-- The second width pads the load, and the lines with a remark reach over it. -/
theorem width_only_pads_stopSnippet :
    (¬Crashes { policy := .strict, width := 0 } stopSnippet ∧
      ¬Crashes { policy := .strict, width := 24 } stopSnippet) ∧
    ∃ listing other, disassemble { policy := .strict, width := 0 } stopSnippet = .ok listing ∧
      disassemble { policy := .strict, width := 24 } stopSnippet = .ok other ∧ listing ≠ other ∧
      List.Forall₂ (SameButPadding 0 24) (listing.toList.splitOn '\n')
        (other.toList.splitOn '\n') := by
  have hnarrow : ¬Crashes { policy := .strict, width := 0 } stopSnippet :=
    not_crashes_of_width_le (by decide)
  have hwide : ¬Crashes { policy := .strict, width := 24 } stopSnippet :=
    not_crashes_of_width_le (by decide)
  have hdiffer : disassemble { policy := .strict, width := 0 } stopSnippet ≠
      disassemble { policy := .strict, width := 24 } stopSnippet := by
    decide +kernel
  refine ⟨⟨hnarrow, hwide⟩, ?_⟩
  rcases width_only_pads stopSnippet .strict 0 24 hnarrow hwide with
    ⟨error, herror, hotherError⟩ | ⟨listing, other, hlisting, hother, hlines, _⟩
  · exact absurd (herror.trans hotherError.symm) hdiffer
  · have hne : listing ≠ other := by
      rintro rfl
      exact hdiffer (hlisting.trans hother.symm)
    exact ⟨listing, other, hlisting, hother, hne, hlines⟩

end RomListing
