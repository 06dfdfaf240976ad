import Mathlib.Data.List.DropRight
import RomListing.Listing.Line
import RomListing.Proofs.InstructionTexts

/-! Taking a line of a listing apart. The comment of a line starts at its last `;$`, whatever the text in
front of it is, and the address behind it reads back. Where that text is source text with at most a
remark behind it, blanks and remark come off as well. -/

namespace RomListing

namespace Reassembly

theorem cutComment?_eq_none {cs : List Char} (h : ';' ∉ cs) : cutComment? cs = none := by
  induction cs with
  | nil => rfl
  | cons c cs ih =>
      have hc : c ≠ ';' := fun heq => h (heq ▸ List.mem_cons_self)
      rw [cutComment?, ih fun hmem => h (List.mem_cons_of_mem c hmem)]
      exact fun _ heq => absurd heq hc

/-- The cut is made at the last `;$`. -/
theorem cutComment?_append (before : List Char) {behind : List Char} (h : ';' ∉ behind) :
    cutComment? (before ++ ';' :: '$' :: behind) = some (before, behind) := by
  have hdollar : ';' ∉ '$' :: behind := by simp [h]
  induction before with
  | nil => rw [List.nil_append, cutComment?, cutComment?_eq_none hdollar]
  | cons c before ih => simp only [List.cons_append, cutComment?, ih]

theorem dropBlanks_append (cs : List Char) (count : Nat) :
    dropBlanks (cs ++ List.replicate count ' ') = dropBlanks cs := by
  rw [dropBlanks, List.reverse_append, List.reverse_replicate, List.dropWhile_append_of_pos]
  · rfl
  · intro c hc
    rw [List.eq_of_mem_replicate hc]
    rfl

theorem dropBlanks_eq_self {cs : List Char} (h : cs.getLast? ≠ some ' ') : dropBlanks cs = cs := by
  apply List.rdropWhile_eq_self_iff.mpr
  intro hne hlast
  rw [List.getLast?_eq_some_getLast hne, eq_of_beq hlast] at h
  exact h rfl

theorem dropNote_cons {c : Char} {cs : List Char} (h : cs.head? ≠ some ';') :
    dropNote (c :: cs) = c :: dropNote cs := by
  rw [dropNote]
  rintro rest rfl hcs
  exact h (hcs ▸ rfl)

theorem dropNote_append {cs rest : List Char} (h : ';' ∉ cs) :
    dropNote (cs ++ ' ' :: ';' :: ' ' :: rest) = cs := by
  induction cs with
  | nil => rfl
  | cons c cs ih =>
      have hcs : ';' ∉ cs := fun hmem => h (List.mem_cons_of_mem c hmem)
      have hhead : (cs ++ ' ' :: ';' :: ' ' :: rest).head? ≠ some ';' := by
        cases cs with
        | nil => simp
        | cons d cs => exact fun heq => hcs (Option.some_inj.mp heq ▸ List.mem_cons_self)
      rw [List.cons_append, dropNote_cons hhead, ih hcs]

theorem dropNote_eq_self {cs : List Char} (h : ';' ∉ cs) : dropNote cs = cs := by
  induction cs with
  | nil => rfl
  | cons c cs ih =>
      have hcs : ';' ∉ cs := fun hmem => h (List.mem_cons_of_mem c hmem)
      rw [dropNote_cons fun heq => hcs (List.mem_of_mem_head? heq), ih hcs]

end Reassembly

namespace Line

open Reassembly

theorem toList_comment (address : UInt32) :
    (comment address).toList = ';' :: '$' :: Hex.digits 4 address.toNat := by
  simp [comment, Hex.toList_literal]

theorem toList_render (width : Nat) (text : String) (address : UInt32) :
    (render width text address).toList =
      text.toList ++ List.replicate (padding width text address) ' ' ++
        ';' :: '$' :: Hex.digits 4 address.toNat := by
  simp [render, blanks, toList_comment]

theorem not_mem_digits {c : Char} (hc : isDigit c = false) (width n : Nat) :
    c ∉ Hex.digits width n := by
  intro hmem
  rw [Hex.isDigit_of_mem_digits hmem] at hc
  exact absurd hc (by decide)

/-- A line falls into its text with the blanks behind it and the digits of its address. -/
theorem cutComment?_render (width : Nat) (text : String) (address : UInt32) :
    cutComment? (render width text address).toList =
      some (text.toList ++ List.replicate (padding width text address) ' ',
        Hex.digits 4 address.toNat) := by
  rw [toList_render, cutComment?_append _ (not_mem_digits (by decide) 4 _)]

theorem lineAddress?_render (width : Nat) (text : String) (address : UInt32) :
    lineAddress? (render width text address).toList = some address.toNat := by
  rw [lineAddress?, cutComment?_render, Option.bind_some, Hex.numberOf?_digits]

theorem toList_sectionMarker (bank : Nat) :
    (sectionMarker bank).toList =
      "SECTION \"rom".toList ++ Nat.toDigits 10 bank ++ "\", ".toList ++
        (if bank = 0 then "ROM0" else "ROMX").toList := by
  unfold sectionMarker
  rw [String.toList_append, String.toList_append, String.toList_append, ← Nat.toList_repr]
  rfl

/-- The line that opens a bank shows no character but those of its fixed parts and of numbers. -/
theorem not_mem_sectionMarker {c : Char} (hdigit : c.isDigit = false)
    (hfixed : c ∉ "SECTION \"rom\", ROM0ROMX".toList) (bank : Nat) :
    c ∉ (sectionMarker bank).toList := by
  have hparts : "SECTION \"rom\", ROM0ROMX".toList =
      "SECTION \"rom".toList ++ "\", ".toList ++ ("ROM0".toList ++ "ROMX".toList) := by decide
  rw [hparts] at hfixed
  simp only [List.mem_append, not_or] at hfixed
  obtain ⟨⟨hopen, hclose⟩, hfirst, hother⟩ := hfixed
  have hnumber : c ∉ Nat.toDigits 10 bank := by
    intro hmem
    rw [Nat.isDigit_of_mem_toDigits (by decide) (by decide) hmem] at hdigit
    exact absurd hdigit (by decide)
  have hmemory : c ∉ (if bank = 0 then "ROM0" else "ROMX").toList := by
    split
    · exact hfirst
    · exact hother
  rw [toList_sectionMarker]
  simp only [List.mem_append, not_or]
  exact ⟨⟨⟨hopen, hnumber⟩, hclose⟩, hmemory⟩

theorem newline_not_mem_sectionMarker (bank : Nat) : '\n' ∉ (sectionMarker bank).toList :=
  not_mem_sectionMarker (by decide) (by decide) bank

/-- The line that opens a bank has no comment. -/
theorem cutComment?_sectionMarker (bank : Nat) : cutComment? (sectionMarker bank).toList = none :=
  cutComment?_eq_none (not_mem_sectionMarker (by decide) (by decide) bank)

theorem isSection_sectionMarker (bank : Nat) : isSection (sectionMarker bank).toList = true := by
  have hopen : "SECTION \"rom".toList = "SECTION ".toList ++ "\"rom".toList := by decide
  rw [isSection, List.isPrefixOf_iff_prefix, toList_sectionMarker, hopen]
  simp only [List.append_assoc]
  exact List.prefix_append _ _

end Line

/-! ### Source text with a remark -/

/-- The remarks that stand behind source text, and none. -/
def remarks : List (List Char) :=
  [[], Note.unknown.toList, Note.truncated.toList, Note.corruptedStop.toList]

/-- A text that consists of source text and at most a remark. -/
def IsLineText (text : String) (source : List Char) : Prop :=
  Legible source ∧ ∃ note ∈ remarks, text.toList = source ++ note

theorem not_mem_of_isSource {c : Char} (hc : isSource c = false) {source : List Char}
    (h : Legible source) : c ∉ source := by
  intro hmem
  rw [List.all_eq_true.mp h.1 c hmem] at hc
  exact absurd hc (by decide)

namespace IsLineText

open Reassembly

variable {text : String} {source : List Char}

theorem dropNote_toList (h : IsLineText text source) : dropNote text.toList = source := by
  obtain ⟨hsource, note, hnote, htext⟩ := h
  have hsemicolon : ';' ∉ source := not_mem_of_isSource (by decide) hsource
  rw [htext]
  simp only [remarks, List.mem_cons, List.not_mem_nil, or_false] at hnote
  rcases hnote with rfl | rfl | rfl | rfl
  · rw [List.append_nil, dropNote_eq_self hsemicolon]
  all_goals exact dropNote_append hsemicolon

theorem getLast?_toList (h : IsLineText text source) : text.toList.getLast? ≠ some ' ' := by
  obtain ⟨hsource, note, hnote, htext⟩ := h
  have hall : ∀ note ∈ remarks, note.getLast?.all (· != ' ') := by decide
  have hlast := hall note hnote
  rw [htext, List.getLast?_append]
  cases hcase : note.getLast? with
  | none => exact hsource.2
  | some c =>
      rw [hcase] at hlast
      exact fun heq => absurd (Option.some_inj.mp heq) (bne_iff_ne.mp hlast)

/-- A line shows no character but those of source text and remarks. -/
theorem not_mem_render (h : IsLineText text source) {c : Char} (hsource : isSource c = false)
    (hremarks : ∀ note ∈ remarks, c ∉ note) (hmark : c ≠ ';') (width : Nat) (address : UInt32) :
    c ∉ (Line.render width text address).toList := by
  obtain ⟨hlegible, note, hnote, htext⟩ := h
  have hspecial : c ≠ ' ' ∧ c ≠ '$' := by
    constructor <;> (rintro rfl; exact absurd hsource (by decide))
  have hdigit : c ∉ Hex.digits 4 address.toNat := by
    intro hmem
    rw [(isSource_of_mem_digits hmem).1] at hsource
    exact absurd hsource (by decide)
  rw [Line.toList_render, htext]
  simp only [List.mem_append, List.mem_cons, List.mem_replicate, not_or, not_and]
  exact ⟨⟨⟨not_mem_of_isSource hsource hlegible, hremarks note hnote⟩, fun _ => hspecial.1⟩, hmark,
    hspecial.2, hdigit⟩

theorem newline_not_mem_render (h : IsLineText text source) (width : Nat) (address : UInt32) :
    '\n' ∉ (Line.render width text address).toList :=
  h.not_mem_render (by decide) (by decide) (by decide) width address

theorem isSection_render (h : IsLineText text source) (width : Nat) (address : UInt32) :
    isSection (Line.render width text address).toList = false := by
  have hletter := h.not_mem_render (c := 'S') (by decide) (by decide) (by decide) width address
  rw [isSection, ← Bool.not_eq_true, List.isPrefixOf_iff_prefix]
  exact fun hinitial => hletter (hinitial.subset List.mem_cons_self)

end IsLineText

end RomListing
