import RomListing.Proofs.Lines
import RomListing.Proofs.Listing
import RomListing.Proofs.Operands

/-! The lines of a listing read back. The text of an instruction leads to its row of the tables, so a
line gives back its offset and its bytes, and a listing gives back its lines. -/

namespace RomListing

namespace Reassembly

theorem textBytes?_of_mem_fixedTexts {text : String} {bytes : List UInt8}
    (h : (text, bytes) ∈ fixedTexts) (offset : UInt32) :
    textBytes? offset text.toList = some bytes := by
  rw [textBytes?, String.ofList_toList, lookup_of_mem nodup_fixedTexts h]

section Numbered

variable {before after : String} (width n : Nat)

theorem numberPart_eq (h : IsFrame before.toList after.toList) :
    numberPart (before.toList ++ '$' :: Hex.digits width n ++ after.toList) = Hex.digits width n := by
  rw [List.append_assoc, List.cons_append, numberPart, h.dropWhile_dollar, h.takeWhile_isDigit]

theorem frame_eq (h : IsFrame before.toList after.toList) :
    frame (before.toList ++ '$' :: Hex.digits width n ++ after.toList) = (before, after) := by
  rw [List.append_assoc, List.cons_append, frame, h.takeWhile_dollar, h.dropWhile_dollar,
    h.dropWhile_isDigit, String.ofList_toList, String.ofList_toList]

/-- A text with an operand or a data byte is none of the fixed texts. -/
theorem lookup_fixedTexts_eq_none (h : IsFrame before.toList after.toList)
    (hknown : (operandTexts.lookup (before, after)).isSome ∨ (before, after) = dataFrame) :
    fixedTexts.lookup
      (String.ofList (before.toList ++ '$' :: Hex.digits width n ++ after.toList)) = none := by
  rw [← Option.not_isSome_iff_eq_none, Option.isSome_iff_exists]
  rintro ⟨bytes, hlookup⟩
  have hforeign := frame_of_mem_fixedTexts (mem_of_lookup hlookup) (by simp)
  rw [String.toList_ofList, frame_eq width n h] at hforeign
  rcases hknown with hoperand | hdata
  · rw [hforeign.1] at hoperand
    contradiction
  · exact hforeign.2 hdata

theorem textBytes?_of_mem_operandTexts {byte : UInt8} {operand : Operand}
    (h : ((before, after), (byte, operand)) ∈ operandTexts) (offset : UInt32) :
    textBytes? offset (before.toList ++ '$' :: Hex.digits width n ++ after.toList) =
      some (byte :: operandBytes offset n operand) := by
  obtain ⟨hframe, hdata⟩ := isFrame_of_mem_operandTexts h
  have hlookup := lookup_of_mem nodup_operandTexts h
  rw [textBytes?, lookup_fixedTexts_eq_none width n hframe (.inl (by rw [hlookup]; rfl)),
    numberPart_eq width n hframe, Hex.numberOf?_digits, frame_eq width n hframe]
  simp only [Option.bind_eq_bind, Option.bind_some, if_neg hdata, hlookup]
  rfl

theorem textBytes?_data (byte : UInt8) (offset : UInt32) :
    textBytes? offset
      (dataFrame.1.toList ++ '$' :: Hex.digits 2 byte.toNat ++ dataFrame.2.toList) =
        some [byte] := by
  rw [textBytes?, lookup_fixedTexts_eq_none 2 byte.toNat isFrame_dataFrame (.inr rfl),
    numberPart_eq 2 byte.toNat isFrame_dataFrame, Hex.numberOf?_digits,
    frame_eq 2 byte.toNat isFrame_dataFrame]
  simp only [Option.bind_eq_bind, Option.bind_some, if_true, UInt8.ofNat_toNat]
  rfl

end Numbered

/-- A line read back from its source text. -/
theorem lineBytes?_render {text : String} {source : List Char} (htext : IsLineText text source)
    {address : UInt32} {bytes : List UInt8} (hbytes : textBytes? address source = some bytes)
    (width : Nat) :
    lineBytes? (Line.render width text address).toList = some (address.toNat, bytes) := by
  rw [lineBytes?, Line.cutComment?_render]
  simp only [Option.bind_eq_bind, Option.bind_some]
  rw [Hex.numberOf?_digits, Option.bind_some, UInt32.ofNat_toNat, dropBlanks_append,
    dropBlanks_eq_self htext.getLast?_toList, htext.dropNote_toList, hbytes]
  rfl

end Reassembly

open Reassembly

/-! ### Instructions -/

/-- The text of an instruction, for an opcode at an image offset, tells the given bytes. -/
def Tells (address : UInt32) (instruction : Instruction) (bytes : List UInt8) : Prop :=
  ∃ source, IsLineText instruction.text source ∧ textBytes? address source = some bytes

theorem tells_of_mem_fixedTexts {text : String} {bytes : List UInt8}
    (h : (text, bytes) ∈ fixedTexts) (address : UInt32) (length : Nat) :
    Tells address ⟨text, length⟩ bytes := by
  refine ⟨text.toList, ⟨legible_of_mem_fixedTexts h, [], List.mem_cons_self, ?_⟩,
    textBytes?_of_mem_fixedTexts h address⟩
  rw [List.append_nil]

theorem tells_data {note : String} (hnote : note.toList ∈ remarks) (address : UInt32) (byte : UInt8) :
    Tells address (.data byte note) [byte] := by
  refine ⟨_, ⟨isFrame_dataFrame.legible 2 byte.toNat, note.toList, hnote, ?_⟩,
    textBytes?_data byte address⟩
  simp [Instruction.data, dataFrame, Hex.toList_literal]

/-- The text of a decoded instruction tells the bytes it was found in, but for the distance of a held
jump. -/
theorem Decodes.tells {address : UInt32} {found : List UInt8} {instruction : Instruction}
    (h : Decodes address found instruction) :
    ∃ bytes, Tells address instruction bytes ∧ bytes.length = instruction.length ∧
      (bytes <+: found ∨
        IsHeldJump address found ∧ bytes.length = 2 ∧ bytes.head? = found.head?) := by
  cases h with
  | @plain byte rest text hopcode =>
      exact ⟨[byte], tells_of_mem_fixedTexts (mem_fixedTexts_of_plain hopcode) address 1, rfl,
        .inl ⟨rest, rfl⟩⟩
  | @stop byte rest hopcode =>
      exact ⟨[byte, 0], tells_of_mem_fixedTexts (mem_fixedTexts_of_stop hopcode) address 2, rfl,
        .inl ⟨rest, rfl⟩⟩
  | @corruptedStop byte rest _ _ =>
      exact ⟨[byte], tells_data (by decide) address byte, rfl, .inl ⟨rest, rfl⟩⟩
  | @extended byte selector rest hopcode =>
      refine ⟨[byte, selector], ?_, rfl, .inl ⟨rest, rfl⟩⟩
      rw [eq_extendedByte hopcode]
      exact tells_of_mem_fixedTexts (mem_fixedTexts_of_extended selector) address 2
  | @withOperand byte rest before after text operand hopcode htext =>
      obtain ⟨width, number, rfl, hbytes⟩ := operandBytes_of_text? htext
      have hmem := mem_operandTexts hopcode
      refine ⟨byte :: operandBytes address number operand, ⟨_, ⟨?_, [], List.mem_cons_self, ?_⟩,
        textBytes?_of_mem_operandTexts width number hmem address⟩, ?_, ?_⟩
      · exact (isFrame_of_mem_operandTexts hmem).1.legible width number
      · simp [Hex.toList_literal]
      · rw [List.length_cons, length_operandBytes, Nat.add_comm]
      · rcases hbytes with hinitial | ⟨value, tail, rfl, rfl, hneg⟩
        · exact .inl ((List.prefix_cons_inj byte).mpr hinitial)
        · exact .inr ⟨⟨byte, value, tail, before, after, rfl, hopcode, hneg⟩, rfl, rfl⟩

/-! ### Visits -/

/-- The walk stops at a relative jump whose target would lie below `$0000`. -/
def Visit.IsHeldJump (visit : Visit) : Prop :=
  visit.item.isHeader = false ∧ RomListing.IsHeldJump visit.address visit.window.readable

/-- As many bytes as a visit covers. They are the bytes at the visit, except that the second byte of a
held jump may be another one. -/
structure Visit.Restores (visit : Visit) (bytes : List UInt8) : Prop where
  length_eq : bytes.length = visit.instruction.length
  byte_eq : ∀ k < bytes.length, bytes[k]? = visit.window.readable[k]? ∨ k = 1 ∧ visit.IsHeldJump

theorem getElem?_eq_of_isPrefix {bytes found : List UInt8} (h : bytes <+: found) {k : Nat}
    (hk : k < bytes.length) : bytes[k]? = found[k]? := by
  rw [List.getElem?_eq_getElem hk, List.prefix_iff_getElem?.mp h k hk]

theorem Visit.Restores.of_isPrefix {visit : Visit} {bytes : List UInt8}
    (hlength : bytes.length = visit.instruction.length) (h : bytes <+: visit.window.readable) :
    visit.Restores bytes :=
  ⟨hlength, fun _ hk => .inl (getElem?_eq_of_isPrefix h hk)⟩

namespace Rom

variable (rom : Rom) (bank : Nat)

/-- A visit shows its first byte as data, or an instruction found in the readable bytes. -/
theorem visitAt_cases {cursor : Nat} (h : cursor < (rom.bankRange bank).stop) :
    (∃ note : String, note.toList ∈ remarks ∧
      (rom.visitAt decode bank cursor).instruction = .data (rom.bytes.getD cursor 0) note) ∨
    ∃ instruction, (rom.visitAt decode bank cursor).item = .code instruction ∧
      Decodes (UInt32.ofNat cursor) (rom.windowAt bank cursor).readable instruction := by
  by_cases hheader : rom.isHeaderByte (UInt32.ofNat cursor)
  · refine .inl ⟨"", by decide, ?_⟩
    rw [Visit.instruction, item_visitAt, if_pos hheader]
    rfl
  · cases hresult : decode (rom.windowAt bank cursor) with
    | error error =>
        refine .inl ⟨error.fault.note, by cases error.fault <;> decide, ?_⟩
        obtain ⟨rest, hreadable⟩ := rom.readable_windowAt bank h
        have herror := decode_eq_error hresult
        rw [hreadable, List.headD_cons] at herror
        rw [herror] at hresult
        rw [Visit.instruction, item_visitAt, if_neg hheader, hresult]
        rfl
    | ok instruction =>
        refine .inr ⟨instruction, ?_, decode_eq_ok hresult⟩
        rw [item_visitAt, if_neg hheader, hresult]
        rfl

/-- The line of every visit tells the bytes at the visit. -/
theorem tells_visitAt {cursor : Nat} (h : cursor < (rom.bankRange bank).stop) :
    ∃ bytes, Tells (UInt32.ofNat cursor) (rom.visitAt decode bank cursor).instruction bytes ∧
      (rom.visitAt decode bank cursor).Restores bytes := by
  rcases rom.visitAt_cases bank h with ⟨note, hnote, hdata⟩ | ⟨instruction, hcode, hdecodes⟩
  · obtain ⟨rest, hreadable⟩ := rom.readable_windowAt bank h
    refine ⟨[rom.bytes.getD cursor 0], ?_, .of_isPrefix ?_ ⟨rest, hreadable.symm⟩⟩
    · rw [hdata]
      exact tells_data hnote _ _
    · rw [hdata]
      rfl
  · obtain ⟨bytes, htells, hlength, hbytes⟩ := hdecodes.tells
    have hinstruction : (rom.visitAt decode bank cursor).instruction = instruction := by
      rw [Visit.instruction, hcode]
      rfl
    refine ⟨bytes, by rwa [hinstruction], by rwa [hinstruction], fun k hk => ?_⟩
    rcases hbytes with hinitial | ⟨hheld, htwo, hhead⟩
    · exact .inl (getElem?_eq_of_isPrefix hinitial hk)
    · obtain rfl | rfl : k = 0 ∨ k = 1 := by omega
      · rw [← List.head?_eq_getElem?, ← List.head?_eq_getElem?]
        exact .inl hhead
      · exact .inr ⟨rfl, by rw [hcode]; rfl, hheld⟩

variable {rom bank}

theorem tells_of_mem_visits {visit : Visit} (h : visit ∈ rom.visits decode bank) :
    ∃ bytes, Tells visit.address visit.instruction bytes ∧ visit.Restores bytes := by
  have htells := rom.tells_visitAt bank (bounds_of_mem_visits h).2
  rw [← eq_visitAt_of_mem_visits h] at htells
  rw [address_of_mem_visits h]
  exact htells

end Rom

/-! ### Listings -/

variable {rom : Rom} {options : Options} {listing : String}

theorem isLineText_of_mem_visits {bank : Nat} {visit : Visit} (h : visit ∈ rom.visits decode bank) :
    ∃ source, IsLineText visit.instruction.text source := by
  obtain ⟨_, ⟨source, hsource, _⟩, _⟩ := Rom.tells_of_mem_visits h
  exact ⟨source, hsource⟩

/-- No line goes on behind a line feed. -/
theorem newline_not_mem_lines (width : Nat) :
    ∀ line ∈ rom.lines decode width, '\n' ∉ line.toList := by
  intro line hline
  rcases (rom.mem_lines decode width).mp hline with ⟨bank, _, rfl⟩ | ⟨visit, hmem, rfl⟩
  · exact Line.newline_not_mem_sectionMarker bank
  · obtain ⟨bank, _, hvisit⟩ := (rom.mem_allVisits decode).mp hmem
    obtain ⟨source, htext⟩ := isLineText_of_mem_visits hvisit
    exact htext.newline_not_mem_render width visit.address

/-- Splitting a listing gives back its lines. -/
theorem splitOn_disassemble (h : disassemble options rom = .ok listing) :
    listing.toList.splitOn '\n' = (rom.lines decode options.width).map String.toList := by
  rw [(disassembleWith_eq_ok_iff.mp h).2, String.toList_intercalate]
  refine List.splitOn_intercalate '\n' ?_ (by simpa using rom.lines_ne_nil decode options.width)
  intro chars hchars
  obtain ⟨line, hline, rfl⟩ := List.mem_map.mp hchars
  exact newline_not_mem_lines options.width line hline

/-- Without the lines that open a bank, a listing has one line for each visit. -/
theorem codeLines_disassemble (h : disassemble options rom = .ok listing) :
    codeLines listing =
      (rom.allVisits decode).map fun visit => (visit.line options.width).toList := by
  have hbank : ∀ bank, ((rom.bankLines decode options.width bank).map String.toList).filter
      (!isSection ·) =
        (rom.visits decode bank).map fun visit => (visit.line options.width).toList := by
    intro bank
    have hmarker : ¬(!isSection (Line.sectionMarker bank).toList) = true := by
      rw [Line.isSection_sectionMarker]
      decide
    have hvisits : ∀ chars ∈ (rom.visits decode bank).map
        (String.toList ∘ Visit.line options.width), (!isSection chars) = true := by
      intro chars hchars
      obtain ⟨visit, hvisit, rfl⟩ := List.mem_map.mp hchars
      obtain ⟨source, htext⟩ := isLineText_of_mem_visits hvisit
      rw [Function.comp_apply, Visit.line, htext.isSection_render]
      rfl
    rw [Rom.bankLines, List.map_cons, List.filter_cons, if_neg hmarker, List.map_map]
    exact List.filter_eq_self.mpr hvisits
  rw [codeLines, splitOn_disassemble h, Rom.lines, List.map_flatMap, List.filter_flatMap,
    Rom.allVisits, List.map_flatMap]
  simp only [hbank]

theorem mapM_map_eq_some {α β γ : Type} {f : β → Option γ} {g : α → β} {k : α → γ} {xs : List α}
    (h : ∀ x ∈ xs, f (g x) = some (k x)) : (xs.map g).mapM f = some (xs.map k) := by
  induction xs with
  | nil => rfl
  | cons x xs ih =>
      have hxs := ih fun y hy => h y (List.mem_cons_of_mem x hy)
      rw [List.map_cons, List.mapM_cons, h x List.mem_cons_self, hxs]
      rfl

end RomListing
