import RomListing.Proofs.CheckedReads
import RomListing.Proofs.ReadBack

/-! From which column on a listing crashes. A line may take no more than a fixed number of blanks. The
shortest texts have two bytes and the longest thirty, so there is a column up to which no line takes too
many blanks, and one from which on the first line already does. -/

namespace RomListing

/-! ### Sizes of texts -/

theorem Hex.utf8ByteSize_literal (width n : Nat) :
    (Hex.literal width n).utf8ByteSize = 1 + (Hex.digits width n).length := by
  have hdigit : ∀ d ∈ List.range 16, d.digitChar.toNat < 128 := by decide
  have hascii : ∀ c ∈ (Hex.literal width n).toList, c.toNat < 128 := by
    intro c hc
    rw [Hex.toList_literal] at hc
    rcases List.mem_cons.mp hc with rfl | hmem
    · decide
    · obtain ⟨d, hd, rfl⟩ := Hex.mem_digits hmem
      exact hdigit d (List.mem_range.mpr hd)
  rw [utf8ByteSize_eq_length hascii, Hex.toList_literal, List.length_cons, Nat.add_comm]

/-- A comment has four digits at least, and no more if its address has 16 bits. -/
theorem Line.utf8ByteSize_comment (address : UInt32) :
    6 ≤ (Line.comment address).utf8ByteSize ∧
      (address.toNat < 0x10000 → (Line.comment address).utf8ByteSize = 6) := by
  have hsize : (Line.comment address).utf8ByteSize = 1 + (1 + (Hex.digits 4 address.toNat).length) := by
    rw [Line.comment, String.utf8ByteSize_append, Hex.utf8ByteSize_literal]
    rfl
  rw [hsize]
  constructor
  · have := Hex.length_digits 4 address.toNat
    omega
  · intro hlt
    rw [Hex.length_digits_of_lt (by decide) hlt]

/-- Texts that are neither shorter than the shortest nor longer than the longest one in a listing. -/
def IsLineSized (text : String) : Prop := 2 ≤ text.utf8ByteSize ∧ text.utf8ByteSize ≤ 30

instance (text : String) : Decidable (IsLineSized text) := inferInstanceAs (Decidable (_ ∧ _))

namespace Reassembly

theorem isLineSized_fixedTexts : ∀ entry ∈ fixedTexts, IsLineSized entry.1 := by
  decide +kernel

theorem utf8ByteSize_operandTexts : ∀ entry ∈ operandTexts,
    3 ≤ entry.1.1.utf8ByteSize + entry.1.2.utf8ByteSize ∧
      entry.1.1.utf8ByteSize + entry.1.2.utf8ByteSize ≤ 10 := by
  decide +kernel

end Reassembly

/-- A byte or a word as an operand. -/
theorem Operand.utf8ByteSize_of_text? {operand : Operand} {offset : UInt32} {bytes : List UInt8}
    {text : String} (h : operand.text? offset bytes = some text) : text.utf8ByteSize ≤ 5 := by
  have hbyte : ∀ value : UInt8, (Hex.literal 2 value.toNat).utf8ByteSize ≤ 5 := by
    intro value
    rw [Hex.utf8ByteSize_literal, Hex.length_digits_of_lt (by decide) value.toNat_lt]
    decide
  have hword : ∀ word : UInt16, (Hex.literal 4 word.toNat).utf8ByteSize ≤ 5 := by
    intro word
    rw [Hex.utf8ByteSize_literal, Hex.length_digits_of_lt (by decide) word.toNat_lt]
  unfold Operand.text? at h
  split at h
  · exact Option.some_inj.mp h ▸ hbyte _
  · exact Option.some_inj.mp h ▸ hword _
  · exact Option.some_inj.mp h ▸ hword _
  · exact Option.some_inj.mp h ▸ hword _
  · exact Option.some_inj.mp h ▸ hword _
  · cases h

theorem Instruction.isLineSized_data (byte : UInt8) {note : String} (h : note.toList ∈ remarks) :
    IsLineSized (Instruction.data byte note).text := by
  have hnote : note.utf8ByteSize ≤ 24 := by
    simp only [remarks, List.mem_cons, List.not_mem_nil, or_false] at h
    rcases h with hempty | hunknown | htruncated | hcorrupted
    · rw [String.toList_eq_nil_iff.mp hempty]
      decide
    · rw [String.toList_inj.mp hunknown]
      decide
    · rw [String.toList_inj.mp htruncated]
      decide
    · rw [String.toList_inj.mp hcorrupted]
      decide
  have hsize : (Instruction.data byte note).text.utf8ByteSize = 6 + note.utf8ByteSize := by
    rw [Instruction.data, String.utf8ByteSize_append, String.utf8ByteSize_append,
      Hex.utf8ByteSize_literal, Hex.length_digits_of_lt (by decide) byte.toNat_lt]
    rfl
  rw [IsLineSized, hsize]
  omega

theorem Decodes.isLineSized {address : UInt32} {bytes : List UInt8} {instruction : Instruction}
    (h : Decodes address bytes instruction) : IsLineSized instruction.text := by
  cases h with
  | plain hopcode =>
      exact Reassembly.isLineSized_fixedTexts _ (Reassembly.mem_fixedTexts_of_plain hopcode)
  | stop hopcode =>
      exact Reassembly.isLineSized_fixedTexts _ (Reassembly.mem_fixedTexts_of_stop hopcode)
  | corruptedStop _ _ => exact Instruction.isLineSized_data _ (by decide)
  | extended _ =>
      exact Reassembly.isLineSized_fixedTexts _ (Reassembly.mem_fixedTexts_of_extended _)
  | withOperand hopcode htext =>
      have hframe := Reassembly.utf8ByteSize_operandTexts _ (Reassembly.mem_operandTexts hopcode)
      have hoperand := Operand.utf8ByteSize_of_text? htext
      rw [IsLineSized, String.utf8ByteSize_append, String.utf8ByteSize_append]
      simp only at hframe
      omega

namespace Rom

variable {rom : Rom}

theorem isLineSized_of_mem_allVisits {visit : Visit} (h : visit ∈ rom.allVisits decode) :
    IsLineSized visit.instruction.text := by
  obtain ⟨bank, _, hvisit⟩ := (rom.mem_allVisits decode).mp h
  have heq := eq_visitAt_of_mem_visits hvisit
  rcases rom.visitAt_cases bank (bounds_of_mem_visits hvisit).2 with
    ⟨note, hnote, hdata⟩ | ⟨instruction, hcode, hdecodes⟩
  · rw [heq, hdata]
    exact Instruction.isLineSized_data _ hnote
  · have hinstruction : visit.instruction = instruction := by
      rw [heq, Visit.instruction, hcode]
      rfl
    rw [hinstruction]
    exact hdecodes.isLineSized

/-- The walk through an image that is not empty starts at its first byte. -/
theorem visitAt_zero_mem_allVisits (h : 0 < rom.size) :
    rom.visitAt decode 0 0 ∈ rom.allVisits decode := by
  have hstart : (rom.bankRange 0).start = 0 := by
    rw [bankRange_start, Nat.zero_mul, Nat.zero_min]
  have hstop : 0 < (rom.bankRange 0).stop := by
    rw [bankRange_stop]
    simp only [bankSize]
    omega
  have hhead := (rom.strides_cursors decode 0).head?_eq (by omega)
  rw [hstart] at hhead
  refine (rom.mem_allVisits decode).mpr ⟨0, rom.bankCount_pos, ?_⟩
  rw [visits_eq_map]
  exact List.mem_map_of_mem (List.mem_of_mem_head? hhead)

theorem allVisits_eq_nil (h : rom.size = 0) : rom.allVisits decode = [] := by
  rw [List.eq_nil_iff_forall_not_mem]
  intro visit hmem
  obtain ⟨bank, _, hvisit⟩ := (rom.mem_allVisits decode).mp hmem
  have hbounds := bounds_of_mem_visits hvisit
  have hstop := rom.bankRange_stop_le_size bank
  omega

end Rom

/-! ### Lines that are too wide -/

variable {rom : Rom} {options : Options}

/-- A lenient run crashes at a line that takes too many blanks, and at no other. -/
theorem Visit.failure?_lenient_eq_tooWide_iff {visit : Visit} {width : Nat} :
    visit.failure? { policy := .lenient, width := width } = some .tooWide ↔
      Line.maxPadding < Line.padding width visit.instruction.text visit.address := by
  refine ⟨failure?_eq_tooWide, fun h => ?_⟩
  rw [failure?_of_refusal?_eq_none visit.refusal?_lenient, if_neg (Nat.not_le.mpr h)]

theorem Line.maxPadding_lt_padding_iff {width : Nat} {text : String} {address : UInt32} :
    Line.maxPadding < Line.padding width text address ↔
      text.utf8ByteSize + (Line.comment address).utf8ByteSize + 65535 < width := by
  rw [Line.maxPadding, Line.padding]
  omega

theorem lenient_eq_tooWide_iff {decoder : Decoder} {width : Nat} :
    disassembleWith decoder { policy := .lenient, width := width } rom = .error .tooWide ↔
      ∃ visit ∈ rom.allVisits decoder,
        Line.maxPadding < Line.padding width visit.instruction.text visit.address := by
  constructor
  · intro h
    obtain ⟨visit, hmem, hvisit⟩ :=
      List.exists_of_findSome?_eq_some (disassembleWith_eq_error_iff.mp h)
    exact ⟨visit, hmem, Visit.failure?_lenient_eq_tooWide_iff.mp hvisit⟩
  · rintro ⟨visit, hmem, hvisit⟩
    -- If the run were fine, then so would be each of its visits.
    by_contra hne
    obtain ⟨listing, hlisting⟩ := lenient_eq_ok hne
    have hnone := (disassembleWith_eq_ok_iff.mp hlisting).1 visit hmem
    rw [Visit.failure?_lenient_eq_tooWide_iff.mpr hvisit] at hnone
    cases hnone

/-- A run is cut short by a fault: a read is out of range, or a line takes more blanks than a line may
hold. -/
def Crashes (options : Options) (rom : Rom) : Prop :=
  (∃ fault, checkedDisassemble options rom = .error fault) ∨
    checkedDisassemble options rom = .ok (.error .tooWide)

theorem crashes_iff : Crashes options rom ↔ disassemble options rom = .error .tooWide := by
  rw [Crashes, checkedDisassemble_eq]
  simp

theorem crashes_lenient_iff {width : Nat} :
    Crashes { policy := .lenient, width := width } rom ↔
      ∃ visit ∈ rom.allVisits decode, visit.instruction.text.utf8ByteSize +
        (Line.comment visit.address).utf8ByteSize + 65535 < width := by
  rw [crashes_iff, disassemble, lenient_eq_tooWide_iff]
  simp only [Line.maxPadding_lt_padding_iff]

/-- The shortest text and the shortest comment together leave no more blanks than a line may hold. -/
theorem Rom.padding_le_of_width_le {width : Nat} (hwidth : width ≤ 65543) {visit : Visit}
    (hmem : visit ∈ rom.allVisits decode) :
    Line.padding width visit.instruction.text visit.address ≤ Line.maxPadding := by
  have htext := (Rom.isLineSized_of_mem_allVisits hmem).1
  have hcomment := (Line.utf8ByteSize_comment visit.address).1
  rw [← Nat.not_lt, Line.maxPadding_lt_padding_iff]
  omega

theorem not_crashes_of_width_le (hwidth : options.width ≤ 65543) : ¬Crashes options rom := by
  intro hcrash
  obtain ⟨visit, hmem, hvisit⟩ := List.exists_of_findSome?_eq_some
    (disassembleWith_eq_error_iff.mp (crashes_iff.mp hcrash))
  exact Nat.not_le.mpr (Visit.failure?_eq_tooWide hvisit) (Rom.padding_le_of_width_le hwidth hmem)

theorem not_crashes_of_size_eq_zero {width : Nat} (hsize : rom.size = 0) :
    ¬Crashes { policy := .lenient, width := width } rom := by
  rw [crashes_lenient_iff, Rom.allVisits_eq_nil hsize]
  simp

/-- The longest text and the comment of the first line leave too many blanks. -/
theorem crashes_of_le_width {width : Nat} (hsize : 0 < rom.size) (hwidth : 65572 ≤ width) :
    Crashes { policy := .lenient, width := width } rom := by
  have hmem := Rom.visitAt_zero_mem_allVisits hsize
  have htext := (Rom.isLineSized_of_mem_allVisits hmem).2
  have haddress : (rom.visitAt decode 0 0).address.toNat < 0x10000 := by
    rw [Rom.address_visitAt]
    decide
  have hcomment := (Line.utf8ByteSize_comment (rom.visitAt decode 0 0).address).2 haddress
  exact crashes_lenient_iff.mpr ⟨_, hmem, by omega⟩

/-- **Crashes.** All reads are in range, so a run crashes only where a line takes too many blanks. That is
never so up to column 65543, and always so in a lenient run from column 65572 on, if there is a byte. -/
theorem crashes_only_beyond_column (rom : Rom) :
    (∀ options, checkedDisassemble options rom = .ok (disassemble options rom)) ∧
      (rom.size < UInt64.size → ∀ bank < rom.bankCount, rom.bankSpan bank = .ok (rom.bankRange bank)) ∧
      (∀ options : Options, options.width ≤ 65543 → ¬Crashes options rom ∧
        ∀ visit ∈ rom.allVisits decode,
          Line.padding options.width visit.instruction.text visit.address ≤ 65535) ∧
      (∀ width, Crashes { policy := .lenient, width := width } rom ↔
        ∃ visit ∈ rom.allVisits decode, visit.instruction.text.utf8ByteSize +
          (Line.comment visit.address).utf8ByteSize + 65535 < width) ∧
      (rom.size = 0 → ∀ width, ¬Crashes { policy := .lenient, width := width } rom) ∧
      (0 < rom.size → ∀ width, 65572 ≤ width → Crashes { policy := .lenient, width := width } rom) := by
  refine ⟨fun options => checkedDisassemble_eq options rom, ?_, ?_, fun width => crashes_lenient_iff,
    fun hsize width => not_crashes_of_size_eq_zero hsize,
    fun hsize width => crashes_of_le_width hsize⟩
  · intro hsize bank hbank
    exact rom.bankSpan_eq_ok hsize hbank
  · intro options hwidth
    exact ⟨not_crashes_of_width_le hwidth, fun visit => Rom.padding_le_of_width_le hwidth⟩

/-- The bounds are sharp: one image with the shortest text crashes right behind the first column, and one
with the longest text goes on up to the second. -/
theorem crashes_right_beyond_column :
    (∀ policy, ¬Crashes { policy := policy, width := 65543 } ⟨#[0xfb], false⟩) ∧
      Crashes { policy := .lenient, width := 65544 } ⟨#[0xfb], false⟩ ∧
      ¬Crashes { policy := .lenient, width := 65571 } ⟨#[0x01], false⟩ ∧
      Crashes { policy := .lenient, width := 65572 } ⟨#[0x01], false⟩ := by
  obtain ⟨_, _, hbelow, hexact, _, _⟩ := crashes_only_beyond_column ⟨#[0xfb], false⟩
  obtain ⟨_, _, _, hlong, _, hbeyond⟩ := crashes_only_beyond_column ⟨#[0x01], false⟩
  refine ⟨?_, ?_, ?_, ?_⟩
  · intro policy
    exact (hbelow { policy := policy, width := 65543 } (Nat.le_refl _)).1
  · exact (hexact 65544).mpr (by decide +kernel)
  · rw [hlong]
    decide +kernel
  · exact hbeyond (by decide) 65572 (Nat.le_refl _)

end RomListing
