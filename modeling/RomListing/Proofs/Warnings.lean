import RomListing.Proofs.Policies
import RomListing.Proofs.ReadBack

/-! The log beside the listing. The log warns of a byte exactly where the listing shows it with a remark
about an error, and the warning tells what the line tells. A strict run that fails stops its log right
before the warning that a lenient run would have given. -/

namespace RomListing

namespace Reassembly

/-- The error of a line, by the source text and the remark it shows. -/
theorem lineError?_render {text : String} {source note : List Char} (hsource : Legible source)
    (hnote : note ∈ remarks) (htext : text.toList = source ++ note) (width : Nat) (address : UInt32) :
    lineError? (Line.render width text address).toList =
      (faultOfNote? note).bind fun fault => (numberOf? (numberPart source)).bind fun opcode =>
        if frame source = dataFrame then some ⟨fault, UInt8.ofNat opcode, address⟩ else none := by
  have hline : IsLineText text source := ⟨hsource, note, hnote, htext⟩
  rw [lineError?, Line.cutComment?_render]
  simp only [Option.bind_eq_bind, Option.bind_some]
  rw [Hex.numberOf?_digits, Option.bind_some, dropBlanks_append,
    dropBlanks_eq_self hline.getLast?_toList, hline.dropNote_toList, htext, List.drop_left,
    UInt32.ofNat_toNat]
  rfl

/-- A data byte stands for the error that its remark tells. -/
theorem lineError?_data {note : String} (hnote : note.toList ∈ remarks) (width : Nat) (byte : UInt8)
    (address : UInt32) :
    lineError? (Line.render width (Instruction.data byte note).text address).toList =
      (faultOfNote? note.toList).map fun fault => ⟨fault, byte, address⟩ := by
  have htext : (Instruction.data byte note).text.toList =
      dataFrame.1.toList ++ '$' :: Hex.digits 2 byte.toNat ++ dataFrame.2.toList ++ note.toList := by
    simp [Instruction.data, dataFrame, Hex.toList_literal]
  rw [lineError?_render (isFrame_dataFrame.legible 2 byte.toNat) hnote htext,
    numberPart_eq 2 byte.toNat isFrame_dataFrame, Hex.numberOf?_digits,
    frame_eq 2 byte.toNat isFrame_dataFrame]
  simp only [Option.bind_some, UInt8.ofNat_toNat]
  cases faultOfNote? note.toList <;> rfl

/-- A line of source text without a remark stands for no error. -/
theorem lineError?_source {text : String} (h : Legible text.toList) (width : Nat) (address : UInt32) :
    lineError? (Line.render width text address).toList = none := by
  rw [lineError?_render h List.mem_cons_self (List.append_nil _).symm]
  rfl

theorem faultOfNote?_note (fault : Fault) : faultOfNote? fault.note.toList = some fault := by
  cases fault <;> decide

theorem note_mem_remarks (fault : Fault) : fault.note.toList ∈ remarks := by
  cases fault <;> decide

/-- The line that stands in for an error gives it back. -/
theorem lineError?_placeholder (error : DecodeError) (width : Nat) :
    lineError? (Line.render width error.placeholder.text error.address).toList = some error := by
  have hline := lineError?_data (note_mem_remarks error.fault) width error.opcode error.address
  rwa [faultOfNote?_note] at hline

/-- The line that opens a bank stands for no error. -/
theorem lineError?_sectionMarker (bank : Nat) :
    lineError? (Line.sectionMarker bank).toList = none := by
  rw [lineError?, Line.cutComment?_sectionMarker]
  rfl

end Reassembly

open Reassembly

/-- An instruction has no remark, unless it is a stop that no zero follows. -/
theorem Decodes.legible_or_corruptedStop {address : UInt32} {found : List UInt8}
    {instruction : Instruction} (h : Decodes address found instruction) :
    Legible instruction.text.toList ∨ ∃ byte, instruction = .data byte Note.corruptedStop := by
  cases h with
  | plain hopcode => exact .inl (legible_of_mem_fixedTexts (mem_fixedTexts_of_plain hopcode))
  | stop hopcode => exact .inl (legible_of_mem_fixedTexts (mem_fixedTexts_of_stop hopcode))
  | @corruptedStop byte rest _ _ => exact .inr ⟨byte, rfl⟩
  | @extended byte selector rest _ =>
      exact .inl (legible_of_mem_fixedTexts (mem_fixedTexts_of_extended selector))
  | @withOperand byte rest before after text operand hopcode htext =>
      obtain ⟨width, number, rfl, _⟩ := operandBytes_of_text? htext
      have hlegible := (isFrame_of_mem_operandTexts (mem_operandTexts hopcode)).1.legible width number
      refine .inl ?_
      simpa [Hex.toList_literal] using hlegible

/-- The error at a visit, put up with or not. -/
def Visit.error? (visit : Visit) : Option DecodeError :=
  match visit.item with
  | .fault error => some error
  | _ => none

theorem Visit.error?_eq_some_iff {visit : Visit} {error : DecodeError} :
    visit.error? = some error ↔ visit.item = .fault error := by
  unfold Visit.error?
  cases visit.item <;> simp

section Visits

variable {rom : Rom} {bank : Nat} {visit : Visit}

/-- What stands at a visit is what the decoder says about its window, header bytes apart. -/
theorem item_of_mem_visits (h : visit ∈ rom.visits decode bank)
    (hheader : visit.item.isHeader = false) : visit.item = .ofResult (decode visit.window) := by
  have hvisit := Rom.eq_visitAt_of_mem_visits h
  have hwindow : visit.window = rom.windowAt bank visit.cursor := congrArg Visit.window hvisit
  have hitem := congrArg Visit.item hvisit
  rw [Rom.item_visitAt] at hitem
  by_cases hbyte : rom.isHeaderByte (UInt32.ofNat visit.cursor)
  · rw [if_pos hbyte] at hitem
    rw [hitem] at hheader
    contradiction
  · rw [if_neg hbyte] at hitem
    rw [hwindow, hitem]

theorem address_of_fault {error : DecodeError} (h : visit ∈ rom.visits decode bank)
    (herror : visit.item = .fault error) : error.address = visit.address := by
  have hitem := item_of_mem_visits h (by rw [herror]; rfl)
  cases hresult : decode visit.window with
  | ok instruction =>
      rw [herror, hresult] at hitem
      contradiction
  | error found =>
      rw [herror, hresult] at hitem
      cases hitem
      rw [decode_eq_error hresult]
      rfl

theorem decodes_of_code {instruction : Instruction} (h : visit ∈ rom.visits decode bank)
    (hcode : visit.item = .code instruction) :
    Decodes visit.address visit.window.readable instruction := by
  have hitem := item_of_mem_visits h (by rw [hcode]; rfl)
  cases hresult : decode visit.window with
  | ok found =>
      rw [hcode, hresult] at hitem
      cases hitem
      exact decode_eq_ok hresult
  | error error =>
      rw [hcode, hresult] at hitem
      contradiction

/-- The line of a visit stands for the error at the visit. -/
theorem lineError?_of_mem_visits (h : visit ∈ rom.visits decode bank) (width : Nat) :
    lineError? (visit.line width).toList = visit.error? := by
  rw [Visit.line, Visit.instruction, Visit.error?]
  cases hitem : visit.item with
  | header byte => exact lineError?_data (by decide) width byte visit.address
  | fault error =>
      rw [← address_of_fault h hitem]
      exact lineError?_placeholder error width
  | code instruction =>
      rcases (decodes_of_code h hitem).legible_or_corruptedStop with hlegible | ⟨byte, rfl⟩
      · exact lineError?_source hlegible width visit.address
      · exact lineError?_data (by decide) width byte visit.address

/-- A line stands for an error exactly if it has the text and the address of the error. -/
theorem lineError?_eq_some_iff (h : visit ∈ rom.visits decode bank) (width : Nat)
    (error : DecodeError) :
    lineError? (visit.line width).toList = some error ↔
      visit.instruction.text = error.placeholder.text ∧ visit.address = error.address := by
  constructor
  · intro hline
    rw [lineError?_of_mem_visits h, Visit.error?_eq_some_iff] at hline
    rw [address_of_fault h hline, Visit.instruction, hline]
    exact ⟨rfl, rfl⟩
  · rintro ⟨htext, haddress⟩
    rw [Visit.line, htext, haddress]
    exact lineError?_placeholder error width

/-- The errors that the lines of a bank stand for are those at its visits. -/
theorem filterMap_lineError?_bankLines (rom : Rom) (width bank : Nat) :
    (rom.bankLines decode width bank).filterMap (fun line => lineError? line.toList) =
      (rom.visits decode bank).filterMap Visit.error? := by
  rw [Rom.bankLines, List.filterMap_cons_none
    (f := fun line : String => lineError? line.toList) (lineError?_sectionMarker bank),
    List.filterMap_map]
  exact List.filterMap_congr fun visit hvisit => lineError?_of_mem_visits hvisit width

end Visits

/-! ### The log of a run -/

section Log

variable {rom : Rom} {decoder : Decoder} {options : Options} {width : Nat}

theorem Visit.refusal?_of_failure? {visit : Visit} (h : visit.failure? options = none) :
    visit.refusal? options.policy = none := by
  unfold Visit.failure? at h
  cases hrefusal : visit.refusal? options.policy with
  | none => rfl
  | some error =>
      rw [hrefusal] at h
      contradiction

/-- An error that the policy puts up with is a warning. -/
theorem Visit.warning?_of_refusal? {policy : Policy} {visit : Visit}
    (h : visit.refusal? policy = none) :
    visit.warning? policy = visit.error?.map DecodeError.message := by
  unfold Visit.refusal? at h
  unfold Visit.warning? Visit.error?
  cases hitem : visit.item with
  | header byte => rfl
  | code instruction => rfl
  | fault error =>
      rw [hitem] at h
      cases hrefuses : policy.refuses error with
      | false => simp [hrefuses]
      | true => simp [hrefuses] at h

/-- The log of a run that does not fail. -/
theorem log_of_ok (h : ∀ visit ∈ rom.allVisits decoder, visit.failure? options = none) :
    Listing.log options (rom.events decoder) =
      (if rom.trailingBytes = 0 then [] else
        [⟨.warn, Event.logSource, toString rom.trailingBytes ++
          " bytes past the last whole bank are not disassembled"⟩]) ++
      (List.range rom.bankCount).flatMap fun bank =>
        ⟨.debug, Event.logSource, "bank " ++ Hex.padded 2 bank ++ ": " ++
            Hex.literal 6 (rom.bankRange bank).start ++ ".." ++
            Hex.literal 6 (rom.bankRange bank).stop⟩ ::
          (rom.visits decoder bank).filterMap fun visit =>
            visit.error?.map fun error => ⟨.warn, Event.logSource, error.message⟩ := by
  rw [Listing.log, Listing.reached_eq_self (failure?_of_mem_events h), rom.filterMap_events]
  congr 1
  · split <;> rfl
  · apply List.flatMap_congr
    intro bank hbank
    rw [Event.entry?, Option.toList_some, List.singleton_append]
    congr 1
    apply List.filterMap_congr
    intro visit hvisit
    have hmem := (rom.mem_allVisits decoder).mpr ⟨bank, List.mem_range.mp hbank, hvisit⟩
    rw [Event.entry?, Visit.warning?_of_refusal? (Visit.refusal?_of_failure? (h visit hmem)),
      Option.map_map]
    rfl

/-- Where a lenient run does not fail, a strict one fails at a visit whose error it does not put up
with. -/
theorem Event.failure?_strict {event : Event} {failure : Failure}
    (hlenient : event.failure? { policy := .lenient, width := width } = none)
    (h : event.failure? { policy := .strict, width := width } = some failure) :
    ∃ visit error, event = .visited visit ∧ visit.item = .fault error ∧
      error.fault = .undefinedOpcode ∧ failure = .undefined error := by
  cases event with
  | trailing count => contradiction
  | bank index span => contradiction
  | visited visit =>
      rw [Event.failure?, failure?_strict_of_lenient hlenient, Option.map_eq_some_iff] at h
      obtain ⟨error, hrefusal, rfl⟩ := h
      unfold Visit.refusal? at hrefusal
      cases hitem : visit.item with
      | header byte => simp [hitem] at hrefusal
      | code instruction => simp [hitem] at hrefusal
      | fault found =>
          simp only [hitem, Policy.refuses, decide_eq_true_eq, Option.ite_none_right_eq_some,
            Option.some_inj] at hrefusal
          obtain ⟨hfault, rfl⟩ := hrefusal
          exact ⟨visit, found, rfl, hitem, hfault, rfl⟩

/-- Both policies tell the same of an event that the strict one does not fail at. -/
theorem Event.entry?_strict {event : Event}
    (h : event.failure? { policy := .strict, width := width } = none) :
    event.entry? .strict = event.entry? .lenient := by
  cases event with
  | trailing count => rfl
  | bank index span => rfl
  | visited visit =>
      rw [Event.entry?, Event.entry?, Visit.warning?_of_refusal? (Visit.refusal?_of_failure? h),
        Visit.warning?_of_refusal? visit.refusal?_lenient]

/-- A strict run that fails tells what the lenient run tells before the first undefined opcode. -/
theorem log_of_strict_failure {failure : Failure}
    (hlenient : disassembleWith decoder { policy := .lenient, width := width } rom ≠ .error .tooWide)
    (h : disassembleWith decoder { policy := .strict, width := width } rom = .error failure) :
    ∃ before visit after error, rom.events decoder = before ++ .visited visit :: after ∧
      (∀ earlier ∈ before, earlier.failure? { policy := .strict, width := width } = none) ∧
      visit.item = .fault error ∧ error.fault = .undefinedOpcode ∧ failure = .undefined error ∧
      Listing.log { policy := .strict, width := width } (rom.events decoder) =
        before.filterMap (Event.entry? .lenient) ∧
      Listing.log { policy := .lenient, width := width } (rom.events decoder) =
        Listing.log { policy := .strict, width := width } (rom.events decoder) ++
          ⟨.warn, Event.logSource, error.message⟩ :: after.filterMap (Event.entry? .lenient) := by
  obtain ⟨listing, hlisting⟩ := lenient_eq_ok hlenient
  have hnone := failure?_of_mem_events (disassembleWith_eq_ok_iff.mp hlisting).1
  rw [disassembleWith_eq_error_iff, ← Rom.findSome?_failure?_events,
    List.findSome?_eq_some_iff] at h
  obtain ⟨before, event, after, hevents, hevent, hbefore⟩ := h
  have hmem : event ∈ rom.events decoder := by
    rw [hevents]
    exact List.mem_append_right _ List.mem_cons_self
  obtain ⟨visit, error, rfl, hitem, hfault, rfl⟩ := Event.failure?_strict (hnone event hmem) hevent
  have hrefused : Event.entry? .strict (.visited visit) = none := by
    simp [Event.entry?, Visit.warning?, hitem, Policy.refuses, hfault]
  have hwarned : Event.entry? .lenient (.visited visit) =
      some ⟨.warn, Event.logSource, error.message⟩ := by
    simp [Event.entry?, Visit.warning?, hitem, Policy.refuses]
  have hstrict : Listing.log { policy := .strict, width := width } (rom.events decoder) =
      before.filterMap (Event.entry? .lenient) := by
    calc Listing.log { policy := .strict, width := width } (rom.events decoder)
        = (before ++ [Event.visited visit]).filterMap (Event.entry? .strict) := by
          rw [Listing.log, hevents, Listing.reached_append_of_none hbefore,
            Listing.reached_cons_of_some hevent]
      _ = before.filterMap (Event.entry? .strict) := by
          rw [List.filterMap_append, List.filterMap_cons_none hrefused, List.filterMap_nil,
            List.append_nil]
      _ = before.filterMap (Event.entry? .lenient) :=
          List.filterMap_congr fun earlier hearlier => Event.entry?_strict (hbefore earlier hearlier)
  refine ⟨before, visit, after, error, hevents, hbefore, hitem, hfault, rfl, hstrict, ?_⟩
  -- The lenient run reaches all events, so its log goes on with the warning and what comes after it.
  rw [hstrict, Listing.log, Listing.reached_eq_self hnone, hevents, List.filterMap_append,
    List.filterMap_cons_some hwarned]

end Log

/-- What a warning tells of an error. -/
theorem DecodeError.message_eq (error : DecodeError) :
    error.message =
      (match error.fault with
        | .undefinedOpcode => "undefined opcode "
        | .truncatedInstruction => "truncated instruction ") ++
        Hex.literal 2 error.opcode.toNat ++ " at address " ++ Hex.literal 4 error.address.toNat := by
  rcases error with ⟨_ | _, opcode, address⟩ <;> rfl

/-- What the line in place of an error tells of it. -/
theorem DecodeError.text_placeholder (error : DecodeError) :
    error.placeholder.text =
      "db " ++ Hex.literal 2 error.opcode.toNat ++
        match error.fault with
        | .undefinedOpcode => " ; unknown instruction"
        | .truncatedInstruction => " ; truncated instruction" := by
  rcases error with ⟨_ | _, opcode, address⟩ <;> rfl

/-- **The log mirrors the listing.** A run that makes a listing warns of exactly the lines that stand in
for an error, in order, with the sort, the byte and the address that the line shows. A strict run that
fails tells what the lenient run tells before the warning of the failing opcode. -/
theorem log_mirrors_listing (rom : Rom) (options : Options) :
    (∀ listing, disassemble options rom = .ok listing →
      listing = "\n".intercalate ((List.range rom.bankCount).flatMap
        (rom.bankLines decode options.width)) ∧
      Listing.log options (rom.events decode) =
        (if rom.trailingBytes = 0 then [] else
          [⟨.warn, "gbdasm::disasm", toString rom.trailingBytes ++
            " bytes past the last whole bank are not disassembled"⟩]) ++
        ((List.range rom.bankCount).flatMap fun bank =>
          ⟨.debug, "gbdasm::disasm", "bank " ++ Hex.padded 2 bank ++ ": " ++
              Hex.literal 6 (rom.bankRange bank).start ++ ".." ++
              Hex.literal 6 (rom.bankRange bank).stop⟩ ::
            (rom.bankLines decode options.width bank).filterMap fun line =>
              (lineError? line.toList).map fun error =>
                ⟨.warn, "gbdasm::disasm",
                  (match error.fault with
                    | .undefinedOpcode => "undefined opcode "
                    | .truncatedInstruction => "truncated instruction ") ++
                    Hex.literal 2 error.opcode.toNat ++ " at address " ++
                    Hex.literal 4 error.address.toNat⟩) ∧
      (∀ visit ∈ rom.allVisits decode, ∀ error,
        lineError? (visit.line options.width).toList = some error ↔
          visit.instruction.text = ("db " ++ Hex.literal 2 error.opcode.toNat ++
            match error.fault with
            | .undefinedOpcode => " ; unknown instruction"
            | .truncatedInstruction => " ; truncated instruction") ∧
          visit.address = error.address) ∧
      ∀ visit ∈ rom.allVisits decode, (visit.item.isHeader = true ∨ ∃ byte : UInt8,
        visit.instruction.text = "db " ++ Hex.literal 2 byte.toNat ++ " ; corrupted stop") →
          lineError? (visit.line options.width).toList = none) ∧
      (∀ failure,
        disassemble { policy := .lenient, width := options.width } rom ≠ .error .tooWide →
        disassemble { policy := .strict, width := options.width } rom = .error failure →
        ∃ before visit after error, rom.events decode = before ++ .visited visit :: after ∧
          (∀ earlier ∈ before,
            earlier.failure? { policy := .strict, width := options.width } = none) ∧
          visit.item = .fault error ∧ error.fault = .undefinedOpcode ∧ failure = .undefined error ∧
          Listing.log { policy := .strict, width := options.width } (rom.events decode) =
            before.filterMap (Event.entry? .lenient) ∧
          Listing.log { policy := .lenient, width := options.width } (rom.events decode) =
            Listing.log { policy := .strict, width := options.width } (rom.events decode) ++
              ⟨.warn, "gbdasm::disasm", "undefined opcode " ++ Hex.literal 2 error.opcode.toNat ++
                " at address " ++ Hex.literal 4 error.address.toNat⟩ ::
                after.filterMap (Event.entry? .lenient)) ∧
      disassembleLoop decode options rom =
        (disassemble options rom, Listing.log options (rom.events decode),
          Listing.calls options (rom.events decode)) := by
  refine ⟨?_, ?_, disassembleLoop_eq decode options rom⟩
  · intro listing h
    obtain ⟨hnone, htext⟩ := disassembleWith_eq_ok_iff.mp h
    refine ⟨htext, ?_, ?_, ?_⟩
    · rw [log_of_ok hnone]
      apply congrArg (List.append _)
      apply List.flatMap_congr
      intro bank _
      rw [← List.map_filterMap, ← List.map_filterMap, filterMap_lineError?_bankLines]
      simp only [DecodeError.message_eq, Event.logSource]
    · intro visit hvisit error
      obtain ⟨bank, _, hmem⟩ := (rom.mem_allVisits decode).mp hvisit
      rw [← error.text_placeholder]
      exact lineError?_eq_some_iff hmem options.width error
    · intro visit hvisit hsort
      obtain ⟨bank, _, hmem⟩ := (rom.mem_allVisits decode).mp hvisit
      rcases hsort with hheader | ⟨byte, hstop⟩
      · rw [lineError?_of_mem_visits hmem, Visit.error?]
        cases hitem : visit.item with
        | header byte => rfl
        | code instruction => rfl
        | fault error =>
            rw [hitem] at hheader
            contradiction
      · rw [Visit.line, hstop]
        exact lineError?_data (by decide) options.width byte visit.address
  · intro failure hlenient hstrict
    obtain ⟨before, visit, after, error, hevents, hbefore, hitem, hfault, hfailure, hlog, hprefix⟩ :=
      log_of_strict_failure hlenient hstrict
    rw [error.message_eq, hfault] at hprefix
    exact ⟨before, visit, after, error, hevents, hbefore, hitem, hfault, hfailure, hlog, hprefix⟩

/-- A snippet with three sorts of `db` lines: a stop that no zero follows, an undefined opcode and an
instruction that the image ends in. -/
def faultySnippet : Rom := ⟨#[0x10, 0x04, 0xd3, 0x3e], false⟩

/-- The lenient run warns of two of the three, and the strict run ends its log before both. -/
theorem log_mirrors_listing_faultySnippet :
    (∃ listing, disassemble { policy := .lenient, width := 0 } faultySnippet = .ok listing ∧
      ∀ visit ∈ faultySnippet.allVisits decode,
        lineError? (visit.line 0).toList = some ⟨.truncatedInstruction, 0x3e, 3⟩ ↔
          visit.instruction.text = "db $3e ; truncated instruction" ∧ visit.address = 3) ∧
    Listing.log { policy := .lenient, width := 0 } (faultySnippet.events decode) =
      [⟨.debug, "gbdasm::disasm", "bank 00: $000000..$000004"⟩,
        ⟨.warn, "gbdasm::disasm", "undefined opcode $d3 at address $0002"⟩,
        ⟨.warn, "gbdasm::disasm", "truncated instruction $3e at address $0003"⟩] ∧
    ∃ later, Listing.log { policy := .lenient, width := 0 } (faultySnippet.events decode) =
      Listing.log { policy := .strict, width := 0 } (faultySnippet.events decode) ++
        ⟨.warn, "gbdasm::disasm", "undefined opcode $d3 at address $0002"⟩ :: later := by
  have htooWide : disassemble { policy := .lenient, width := 0 } faultySnippet ≠ .error .tooWide := by
    decide +kernel
  have hstrict : disassemble { policy := .strict, width := 0 } faultySnippet =
      .error (.undefined ⟨.undefinedOpcode, 0xd3, 2⟩) := by
    decide +kernel
  obtain ⟨listing, hlisting⟩ := lenient_eq_ok htooWide
  obtain ⟨hlines, hprefix, _⟩ :=
    log_mirrors_listing faultySnippet { policy := .lenient, width := 0 }
  obtain ⟨_, hwarnings, hiff, _⟩ := hlines listing hlisting
  obtain ⟨_, _, after, error, _, _, _, _, heq, _, hlog⟩ := hprefix _ htooWide hstrict
  cases heq
  exact ⟨⟨listing, hlisting, fun visit hvisit => hiff visit hvisit _⟩,
    hwarnings.trans (by decide +kernel), _, hlog⟩

end RomListing
