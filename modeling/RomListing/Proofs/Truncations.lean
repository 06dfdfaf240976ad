import Mathlib.Data.List.Nodup
import RomListing.Proofs.Outcomes
import RomListing.Proofs.Warnings

/-! Where a listing shows that an instruction is cut short. The window of a visit reaches to the end of its
bank, so an instruction is cut short by the end of the bank and by nothing else, and since none has more
than three bytes it starts at one of the last two bytes of the bank. -/

namespace RomListing

/-- A visit is shown as some byte with the remark that its instruction is cut short. -/
def Visit.showsTruncation (visit : Visit) : Bool :=
  Reassembly.allBytes.any fun byte =>
    visit.instruction.text = (Instruction.data byte Note.truncated).text

theorem Visit.showsTruncation_iff {visit : Visit} :
    visit.showsTruncation = true ↔
      ∃ byte, visit.instruction.text = (Instruction.data byte Note.truncated).text := by
  simp [showsTruncation, Reassembly.mem_allBytes]

theorem Item.ofResult_eq_fault_iff {result : Except DecodeError Instruction} {error : DecodeError} :
    ofResult result = .fault error ↔ result = .error error := by
  cases result <;> simp [ofResult]

namespace Rom

variable {rom : Rom} {bank cursor : Nat}

/-- A decoder may read all bytes up to the end of the bank. -/
theorem available_windowAt : (rom.windowAt bank cursor).available =
    (rom.bankRange bank).stop - cursor := by
  rw [Window.available, length_bytes_windowAt, Nat.min_self]
  rfl

theorem opcodeByte_windowAt (h : cursor < (rom.bankRange bank).stop) :
    (rom.windowAt bank cursor).opcodeByte = rom.bytes.getD cursor 0 := by
  obtain ⟨rest, hreadable⟩ := rom.readable_windowAt bank h
  exact Window.opcodeByte_of_readable hreadable

/-- What is cut short starts right before the end of the bank, or one byte before that. -/
theorem edge_of_hasFault (h : cursor < (rom.bankRange bank).stop)
    (hfault : (rom.windowAt bank cursor).HasFault .truncatedInstruction) :
    cursor + 1 = (rom.bankRange bank).stop ∨
      cursor + 2 = (rom.bankRange bank).stop ∧ (rom.windowAt bank cursor).opcode.length = 3 := by
  have hle := (rom.windowAt bank cursor).opcode.length_le
  have havailable : (rom.windowAt bank cursor).available = _ := available_windowAt
  rcases hfault with hnone | ⟨_, _, hshort⟩ <;> omega

/-- Of the last byte of a bank every instruction is cut short that asks for more. -/
theorem hasFault_at_edge (h : cursor + 1 = (rom.bankRange bank).stop) :
    (rom.windowAt bank cursor).HasFault .truncatedInstruction ↔
      (rom.windowAt bank cursor).opcode ≠ .undefined ∧ (rom.windowAt bank cursor).opcode ≠ .stop ∧
        1 < (rom.windowAt bank cursor).opcode.length := by
  have havailable : (rom.windowAt bank cursor).available = 1 := by
    rw [available_windowAt]
    omega
  rw [Window.HasFault, havailable]
  exact or_iff_right (by decide)

variable {visit : Visit}

/-- A visit shows a truncation exactly if it is no header byte and its instruction is cut short. -/
theorem text_eq_truncated_iff (h : visit ∈ rom.visits decode bank) (byte : UInt8) :
    visit.instruction.text = (Instruction.data byte Note.truncated).text ↔
      rom.isHeaderByte (UInt32.ofNat visit.cursor) = false ∧
        (rom.windowAt bank visit.cursor).HasFault .truncatedInstruction ∧
        (rom.windowAt bank visit.cursor).opcodeByte = byte := by
  have hline := lineError?_eq_some_iff h 0 ⟨.truncatedInstruction, byte, visit.address⟩
  rw [lineError?_of_mem_visits h, Visit.error?_eq_some_iff] at hline
  have htext : visit.instruction.text = (Instruction.data byte Note.truncated).text ↔
      visit.item = .fault ⟨.truncatedInstruction, byte, visit.address⟩ :=
    (hline.trans (and_iff_left rfl)).symm
  have hitem : visit.item = _ := congrArg Visit.item (eq_visitAt_of_mem_visits h)
  rw [htext, hitem, item_visitAt, address_of_mem_visits h]
  cases hheader : rom.isHeaderByte (UInt32.ofNat visit.cursor) with
  | true => simp
  | false =>
      rw [if_neg Bool.false_ne_true, Item.ofResult_eq_fault_iff, eq_self, true_and]
      exact decode_eq_error_iff

/-- No two truncations stand at the same one of the last two bytes. -/
theorem length_filter_showsTruncation_le
    (h : ∀ visit ∈ rom.visits decode bank, visit.showsTruncation = true →
      visit.cursor + 1 = (rom.bankRange bank).stop ∨ visit.cursor + 2 = (rom.bankRange bank).stop) :
    ((rom.visits decode bank).filter Visit.showsTruncation).length ≤ 2 := by
  have hsublist : (((rom.visits decode bank).filter Visit.showsTruncation).map Visit.cursor).Sublist
      (rom.cursors decode bank) := List.filter_sublist.map Visit.cursor
  have hnodup := ((rom.strides_cursors decode bank).pairwise_lt.sublist hsublist).imp Nat.ne_of_lt
  have hsubset : ((rom.visits decode bank).filter Visit.showsTruncation).map Visit.cursor ⊆
      [(rom.bankRange bank).stop - 1, (rom.bankRange bank).stop - 2] := by
    intro cursor hcursor
    obtain ⟨visit, hvisit, rfl⟩ := List.mem_map.mp hcursor
    obtain ⟨hmem, hshows⟩ := List.mem_filter.mp hvisit
    rcases h visit hmem hshows with hlast | hbefore
    · simp [← hlast]
    · simp [← hbefore]
  rw [← List.length_map (f := Visit.cursor)]
  exact List.Nodup.length_le_of_subset hnodup hsubset

end Rom

/-- **Truncations.** An instruction is shown as cut short only at one of the last two bytes of its bank, at
the one before the last only if its opcode asks for three bytes. At the last byte any opcode that asks for
more than this byte is, except a stop. -/
theorem truncations_end_banks {rom : Rom} {options : Options} {listing : String}
    (h : disassemble options rom = .ok listing) :
    listing = "\n".intercalate ((List.range rom.bankCount).flatMap fun bank =>
        Line.sectionMarker bank :: (rom.visits decode bank).map (Visit.line options.width)) ∧
      ∀ bank < rom.bankCount,
        (∀ visit ∈ rom.visits decode bank, ∀ byte,
          visit.instruction.text = (Instruction.data byte Note.truncated).text →
            rom.bytes[visit.cursor]? = some byte ∧
              (visit.cursor + 1 = (rom.bankRange bank).stop ∨
                visit.cursor + 2 = (rom.bankRange bank).stop ∧
                  (Opcode.ofByte byte).length = 3)) ∧
          ((rom.visits decode bank).filter Visit.showsTruncation).length ≤ 2 ∧
          ∀ visit ∈ rom.visits decode bank, visit.cursor + 1 = (rom.bankRange bank).stop →
            rom.isHeaderByte (UInt32.ofNat visit.cursor) = false →
            ∃ byte, rom.bytes[visit.cursor]? = some byte ∧
              ((∃ shown, visit.instruction.text = (Instruction.data shown Note.truncated).text) ↔
                Opcode.ofByte byte ≠ .undefined ∧ Opcode.ofByte byte ≠ .stop ∧
                  1 < (Opcode.ofByte byte).length) := by
  refine ⟨(disassembleWith_eq_ok_iff.mp h).2, fun bank _ => ?_⟩
  have hplace : ∀ visit ∈ rom.visits decode bank, ∀ byte,
      visit.instruction.text = (Instruction.data byte Note.truncated).text →
        rom.bytes[visit.cursor]? = some byte ∧
          (visit.cursor + 1 = (rom.bankRange bank).stop ∨
            visit.cursor + 2 = (rom.bankRange bank).stop ∧ (Opcode.ofByte byte).length = 3) := by
    intro visit hvisit byte htext
    have hcursor := (Rom.bounds_of_mem_visits hvisit).2
    obtain ⟨_, hfault, hbyte⟩ := (Rom.text_eq_truncated_iff hvisit byte).mp htext
    have hedge := Rom.edge_of_hasFault hcursor hfault
    rw [Window.opcode, hbyte] at hedge
    rw [Rom.opcodeByte_windowAt hcursor] at hbyte
    exact ⟨hbyte ▸ rom.getElem?_bytes bank hcursor, hedge⟩
  refine ⟨hplace, ?_, ?_⟩
  · refine Rom.length_filter_showsTruncation_le fun visit hvisit hshows => ?_
    obtain ⟨byte, htext⟩ := Visit.showsTruncation_iff.mp hshows
    exact (hplace visit hvisit byte htext).2.imp_right And.left
  · intro visit hvisit hlast hheader
    have hcursor := (Rom.bounds_of_mem_visits hvisit).2
    have hedge := Rom.hasFault_at_edge hlast
    rw [Window.opcode, Rom.opcodeByte_windowAt hcursor] at hedge
    refine ⟨_, rom.getElem?_bytes bank hcursor, ?_⟩
    simp only [Rom.text_eq_truncated_iff hvisit, hheader, hedge, true_and, exists_and_left,
      exists_eq', and_true]

/-- A bank of two bytes with two truncations: a load that lacks one byte, then a jump that lacks two. -/
def cutSnippet : Rom := ⟨#[0x01, 0xc3], false⟩

theorem truncations_end_cutSnippet :
    disassemble { policy := .strict, width := 0 } cutSnippet =
        .ok ("SECTION \"rom0\", ROM0\ndb $01 ; truncated instruction;$0000\n" ++
          "db $c3 ; truncated instruction;$0001") ∧
      (cutSnippet.visits decode 0).filter Visit.showsTruncation = cutSnippet.visits decode 0 ∧
      (cutSnippet.visits decode 0).length ≤ 2 ∧
      (cutSnippet.bytes[0]? = some 0x01 ∧
        (0 + 1 = 2 ∨ 0 + 2 = 2 ∧ (Opcode.ofByte 0x01).length = 3)) ∧
      ∃ byte, cutSnippet.bytes[1]? = some byte ∧ Opcode.ofByte byte ≠ .undefined ∧
        Opcode.ofByte byte ≠ .stop ∧ 1 < (Opcode.ofByte byte).length := by
  have hlisting : disassemble { policy := .strict, width := 0 } cutSnippet =
      .ok ("SECTION \"rom0\", ROM0\ndb $01 ; truncated instruction;$0000\n" ++
        "db $c3 ; truncated instruction;$0001") := by
    decide
  have hall : (cutSnippet.visits decode 0).filter Visit.showsTruncation =
      cutSnippet.visits decode 0 := by
    decide
  have hfirst : cutSnippet.visitAt decode 0 0 ∈ cutSnippet.visits decode 0 := by decide
  have hlast : cutSnippet.visitAt decode 0 1 ∈ cutSnippet.visits decode 0 := by decide
  obtain ⟨_, hbanks⟩ := truncations_end_banks hlisting
  obtain ⟨hplace, hcount, hedge⟩ := hbanks 0 (by decide)
  obtain ⟨byte, hbyte, hshows⟩ := hedge _ hlast rfl rfl
  rw [hall] at hcount
  exact ⟨hlisting, hall, hcount, hplace _ hfirst 0x01 (by decide), byte, hbyte,
    hshows.mp ⟨0xc3, by decide⟩⟩

end RomListing
