import Mathlib.Data.List.Basic
import RomListing.Proofs.Decoding
import RomListing.Proofs.Listing
import RomListing.Reassembly

/-! A run with every read spelled out. Here each byte is fetched by its index, each run of bytes by its
bounds and each opcode by its place in a table, and a read out of range is a fault. No fault ever arises:
the checks that come before a read leave it in range, so the run with checked reads is the run. -/

namespace RomListing

/-! ### Reads -/

def readAt {α : Type} (items : List α) (index : Nat) : Except RangeError α :=
  match items[index]? with
  | some item => .ok item
  | none => .error (.indexPastEnd items.length index)

def readSpan (bytes : List UInt8) (span : Span) : Except RangeError (List UInt8) :=
  if bytes.length < span.start then .error (.startPastEnd bytes.length span.start)
  else if bytes.length < span.stop then .error (.stopPastEnd bytes.length span.stop)
  else if span.stop < span.start then .error (.reversed span.start span.stop)
  else .ok (bytes.extract span.start span.stop)

/-- The opcodes in the order of their bytes. -/
def Opcode.table : List Opcode := Reassembly.allBytes.map Opcode.ofByte

/-- The extended set in the order of its second bytes. -/
def Extended.table : List Extended := Reassembly.allBytes.map Extended.ofByte

/-- What follows a read in range goes on with what was read. -/
theorem bind_of_eq_ok {α β : Type} {read : Except RangeError α} {found : α} (h : read = .ok found)
    (next : α → Except RangeError β) : (read >>= next) = next found := by
  rw [h]
  rfl

theorem readSpan_eq_ok {bytes : List UInt8} {span : Span} (hstart : span.start ≤ span.stop)
    (hstop : span.stop ≤ bytes.length) :
    readSpan bytes span = .ok (bytes.extract span.start span.stop) := by
  rw [readSpan, if_neg (by omega), if_neg (by omega), if_neg (by omega)]

/-- A table with an entry for each byte is never read past its end. -/
theorem readAt_map_allBytes {α : Type} (f : UInt8 → α) (byte : UInt8) :
    readAt (Reassembly.allBytes.map f) byte.toNat = .ok (f byte) := by
  have hentry : (Reassembly.allBytes.map f)[byte.toNat]? = some (f byte) := by
    rw [Reassembly.allBytes, List.getElem?_map, List.getElem?_map, List.getElem?_range byte.toNat_lt,
      Option.map_some, Option.map_some, UInt8.ofNat_toNat]
  rw [readAt, hentry]

theorem Opcode.readAt_table (byte : UInt8) : readAt table byte.toNat = .ok (ofByte byte) :=
  readAt_map_allBytes ofByte byte

theorem Extended.readAt_table (byte : UInt8) : readAt table byte.toNat = .ok (ofByte byte) :=
  readAt_map_allBytes ofByte byte

theorem Rom.byteAt_eq_ok {rom : Rom} {index : Nat} (h : index < rom.size) :
    rom.byteAt index = .ok (rom.bytes.getD index 0) := by
  rw [byteAt, Array.getElem?_eq_getElem h, Array.getD_eq_getD_getElem?, Array.getElem?_eq_getElem h]
  rfl

/-- The first offset of a bank fits into 64 bits if the image's size does. -/
theorem Rom.bankSpan_eq_ok (rom : Rom) {bank : Nat} (hsize : rom.size < UInt64.size)
    (hbank : bank < rom.bankCount) : rom.bankSpan bank = .ok (rom.bankRange bank) := by
  have hoffset : bank * bankSize ≤ rom.size := by
    simp only [bankCount, bankSize] at hbank ⊢
    omega
  rw [bankSpan, if_pos (Nat.lt_of_le_of_lt hoffset hsize)]

theorem Rom.slice_eq_ok {rom : Rom} (span : Span) (hstart : span.start ≤ span.stop)
    (hstop : span.stop ≤ rom.size) :
    rom.slice span = .ok (rom.bytes.extract span.start span.stop) := by
  rw [slice, if_neg (by omega), if_neg (by omega), if_neg (by omega)]

/-! ### Decoding -/

/-- The text of an operand, each byte of it read by its index behind the opcode. -/
def Operand.checkedText (offset : UInt32) (arguments : List UInt8) : Operand → Except RangeError String
  | .byte => do return Hex.literal 2 (← readAt arguments 0).toNat
  | .highPage => do return Hex.literal 4 (wordOf 0xff (← readAt arguments 0)).toNat
  | .distance => do
      let value ← readAt arguments 0
      return Hex.literal 4 (jumpTarget (addressAfter offset 2) value.toInt8).toNat
  | .word | .address => do
      let high ← readAt arguments 1
      let low ← readAt arguments 0
      return Hex.literal 4 (wordOf high low).toNat

/-- The text of an instruction from the bytes behind its opcode. -/
def Opcode.checkedText (offset : UInt32) (arguments : List UInt8) : Opcode → Except RangeError String
  | .withOperand before operand after => do
      return before ++ (← operand.checkedText offset arguments) ++ after
  | .extended => do
      let selector ← readAt arguments 0
      return (← readAt Extended.table selector.toNat).text
  | opcode => .ok opcode.template

namespace Window

/-- How many bytes a decoder may count on. -/
def available (window : Window) : Nat := min window.bytes.length window.remaining

/-- Whether a stop lacks the zero behind it. The byte there is read only if it may be. -/
def checkedCorrupted (window : Window) : Except RangeError Bool :=
  if window.available < 2 then .ok true else do return (← readAt window.bytes 1) != 0

/-- The instruction of an opcode, of which as many bytes are read as it is long. -/
def checkedInstruction (window : Window) (byte : UInt8) (opcode : Opcode) :
    Except RangeError (Except DecodeError Instruction) :=
  if window.available < opcode.length then
    .ok (.error ⟨.truncatedInstruction, byte, window.address⟩)
  else do
    let arguments ← readSpan window.bytes ⟨1, opcode.length⟩
    return .ok ⟨← opcode.checkedText window.address arguments, opcode.length⟩

end Window

/-- The decoder of the instruction set with checked reads. -/
def checkedDecode (window : Window) : Except RangeError (Except DecodeError Instruction) :=
  if window.available = 0 then .ok (.error ⟨.truncatedInstruction, 0, window.address⟩)
  else do
    let byte ← readAt window.bytes 0
    let opcode ← readAt Opcode.table byte.toNat
    match opcode with
    | .undefined => return .error ⟨.undefinedOpcode, byte, window.address⟩
    | .stop =>
        if ← window.checkedCorrupted then return .ok (.data byte Note.corruptedStop)
        else window.checkedInstruction byte opcode
    | _ => window.checkedInstruction byte opcode

/-- The bytes of an operand are enough to read it, with bounds or without. -/
theorem Operand.checkedText_eq (operand : Operand) (offset : UInt32) {arguments : List UInt8}
    (h : arguments.length = operand.size) :
    ∃ text, operand.text? offset arguments = some text ∧
      operand.checkedText offset arguments = .ok text := by
  cases operand with
  | byte | highPage | distance =>
      obtain ⟨value, rfl⟩ := List.length_eq_one_iff.mp h
      exact ⟨_, rfl, rfl⟩
  | word | address =>
      obtain ⟨low, high, rfl⟩ := List.length_eq_two.mp h
      exact ⟨_, rfl, rfl⟩

theorem Operand.text?_eq_none {operand : Operand} {offset : UInt32} {bytes : List UInt8}
    (h : bytes.length < operand.size) : operand.text? offset bytes = none := by
  rw [Option.eq_none_iff_forall_ne_some]
  intro text htext
  have := Operand.size_le_of_text? htext
  omega

/-- An instruction of the extended set is read from the byte behind the opcode. -/
theorem Opcode.checkedText_extended (offset : UInt32) (selector : UInt8) (rest : List UInt8) :
    Opcode.extended.checkedText offset (selector :: rest) = .ok (Extended.ofByte selector).text := by
  exact bind_of_eq_ok (Extended.readAt_table selector) _

theorem Opcode.length_le (opcode : Opcode) : opcode.length ≤ 3 := by
  cases opcode with
  | withOperand before operand after => cases operand <;> simp [length, Operand.size]
  | plain | extended | stop | undefined => simp [length]

theorem Opcode.length_pos (opcode : Opcode) : 1 ≤ opcode.length := by
  cases opcode <;> simp [length]

namespace Window

variable {window : Window} {byte : UInt8} {rest : List UInt8}

/-- A decoder never counts on bytes that it may not read. -/
theorem available_lt_iff (window : Window) (count : Nat) (h : count ≤ 3) :
    window.available < count ↔ window.readable.length < count := by
  rw [available, readable, List.length_take]
  omega

theorem readAt_eq_ok {index : Nat} (h : window.readable[index]? = some byte) :
    readAt window.bytes index = .ok byte := by
  obtain ⟨hindex, _⟩ := List.getElem?_eq_some_iff.mp h
  rw [readable, List.length_take] at hindex
  rw [readable, List.getElem?_take_of_lt (by omega)] at h
  rw [readAt, h]

theorem readSpan_eq_ok {stop : Nat} (hstart : 1 ≤ stop) (hstop : stop ≤ window.readable.length) :
    readSpan window.bytes ⟨1, stop⟩ = .ok ((window.readable.drop 1).take (stop - 1)) := by
  rw [readable, List.length_take] at hstop
  rw [RomListing.readSpan_eq_ok hstart (by simp only; omega), readable, List.drop_take, List.take_take,
    Nat.min_eq_left (by omega), List.extract_eq_take_drop]

theorem checkedCorrupted_eq (hreadable : window.readable = byte :: rest) :
    window.checkedCorrupted = .ok (rest.head? != some 0) := by
  have hshort := window.available_lt_iff 2 (by decide)
  unfold checkedCorrupted
  cases rest with
  | nil =>
      rw [if_pos (hshort.mpr (by simp [hreadable]))]
      rfl
  | cons next tail =>
      rw [if_neg (mt hshort.mp (by simp [hreadable])), readAt_eq_ok (by rw [hreadable]; rfl)]
      rfl

/-- An opcode whose bytes may all be read. -/
theorem checkedInstruction_eq_ok (opcode : Opcode) {text : String}
    (hreadable : window.readable = byte :: rest) (hlength : opcode.length ≤ rest.length + 1)
    (htext : opcode.checkedText window.address (rest.take (opcode.length - 1)) = .ok text) :
    window.checkedInstruction byte opcode = .ok (.ok ⟨text, opcode.length⟩) := by
  have hreadableLength : opcode.length ≤ window.readable.length := by
    rw [hreadable, List.length_cons]
    exact hlength
  have hshort := window.available_lt_iff opcode.length opcode.length_le
  rw [checkedInstruction, if_neg (by omega),
    bind_of_eq_ok (readSpan_eq_ok opcode.length_pos hreadableLength), hreadable, List.drop_one,
    List.tail_cons, bind_of_eq_ok htext]
  rfl

/-- An opcode that is cut off. -/
theorem checkedInstruction_eq_error (opcode : Opcode) (hreadable : window.readable = byte :: rest)
    (hlength : rest.length + 1 < opcode.length) :
    window.checkedInstruction byte opcode =
      .ok (.error ⟨.truncatedInstruction, byte, window.address⟩) := by
  have hshort := window.available_lt_iff opcode.length opcode.length_le
  rw [hreadable, List.length_cons] at hshort
  rw [checkedInstruction, if_pos (hshort.mpr hlength)]

/-- An opcode with an operand is cut off exactly if its operand is. -/
theorem checkedInstruction_withOperand (before : String) (operand : Operand) (after : String)
    (hreadable : window.readable = byte :: rest) :
    window.checkedInstruction byte (.withOperand before operand after) =
      .ok (match operand.text? window.address rest with
        | none => .error ⟨.truncatedInstruction, byte, window.address⟩
        | some text => .ok ⟨before ++ text ++ after, 1 + operand.size⟩) := by
  have hsize : (Opcode.withOperand before operand after).length = 1 + operand.size := rfl
  by_cases hshort : rest.length < operand.size
  · rw [Operand.text?_eq_none hshort]
    exact checkedInstruction_eq_error _ hreadable (by omega)
  · have hlength : (rest.take operand.size).length = operand.size := by
      rw [List.length_take]
      omega
    obtain ⟨text, htext, hchecked⟩ := operand.checkedText_eq window.address hlength
    rw [Operand.text?_take] at htext
    rw [htext]
    refine checkedInstruction_eq_ok _ hreadable (by omega) ?_
    rw [hsize, Nat.add_sub_cancel_left, Opcode.checkedText, hchecked]
    rfl

/-- Of an opcode that may be read, the bytes behind it are looked at as far as they may be. -/
theorem checkedDecode_of_readable (hreadable : window.readable = byte :: rest) :
    checkedDecode window =
      match Opcode.ofByte byte with
      | .undefined => .ok (.error ⟨.undefinedOpcode, byte, window.address⟩)
      | .stop =>
          if rest.head? != some 0 then .ok (.ok (.data byte Note.corruptedStop))
          else window.checkedInstruction byte .stop
      | opcode => window.checkedInstruction byte opcode := by
  have hempty := window.available_lt_iff 1 (by decide)
  rw [hreadable, List.length_cons] at hempty
  rw [checkedDecode, if_neg (by omega), bind_of_eq_ok (readAt_eq_ok (by rw [hreadable]; rfl)),
    bind_of_eq_ok (Opcode.readAt_table byte), checkedCorrupted_eq hreadable]
  cases Opcode.ofByte byte <;> rfl

end Window

/-- Reads in range find what the decoder finds. -/
theorem checkedDecode_eq (window : Window) : checkedDecode window = .ok (decode window) := by
  unfold decode
  cases hreadable : window.readable with
  | nil =>
      have hempty := window.available_lt_iff 1 (by decide)
      rw [hreadable, List.length_nil] at hempty
      rw [checkedDecode, if_pos (by omega)]
  | cons byte rest =>
      change checkedDecode window = .ok (decodeOpcode window.address byte rest)
      rw [Window.checkedDecode_of_readable hreadable]
      unfold decodeOpcode
      cases Opcode.ofByte byte with
      | plain text =>
          exact Window.checkedInstruction_eq_ok (.plain text) hreadable (Nat.le_add_left _ _) rfl
      | undefined => rfl
      | stop =>
          cases rest with
          | nil => rfl
          | cons next tail =>
              by_cases hzero : next = 0
              · rw [hzero] at hreadable ⊢
                exact Window.checkedInstruction_eq_ok .stop hreadable (Nat.le_add_left _ _) rfl
              · simp [hzero]
      | extended =>
          cases rest with
          | nil => exact Window.checkedInstruction_eq_error .extended hreadable (by decide)
          | cons selector tail =>
              exact Window.checkedInstruction_eq_ok .extended hreadable
                (Nat.le_add_left _ _) (Opcode.checkedText_extended _ _ _)
      | withOperand before operand after =>
          exact Window.checkedInstruction_withOperand before operand after hreadable

/-! ### The walk -/

namespace Rom

variable (rom : Rom) (bank : Nat)

/-- What stands at an offset of a bank. A header byte is read by its offset, anything else from the rest
of the bank. -/
def checkedVisit (cursor : Nat) : Except RangeError Visit :=
  if rom.isHeaderByte (UInt32.ofNat cursor) then do
    return ⟨cursor, rom.windowAt bank cursor, .header (← rom.byteAt cursor)⟩
  else do
    let bytes ← rom.slice ⟨cursor, (rom.bankRange bank).stop⟩
    let window := ⟨bytes.toList, (rom.bankRange bank).stop - cursor, UInt32.ofNat cursor⟩
    return ⟨cursor, window, .ofResult (← checkedDecode window)⟩

/-- The visits of a bank from an offset on. -/
def checkedVisits (cursor : Nat) : Except RangeError (List Visit) :=
  if cursor < (rom.bankRange bank).stop then do
    let visit ← rom.checkedVisit bank cursor
    return visit :: (← checkedVisits (cursor + visit.advance))
  else .ok []
  termination_by (rom.bankRange bank).stop - cursor
  decreasing_by
    have : 1 ≤ visit.advance := Nat.le_max_right _ _
    omega

def checkedBankEvents : Except RangeError (List Event) := do
  let visits ← rom.checkedVisits bank (rom.bankRange bank).start
  return .bank bank (rom.bankRange bank) :: visits.map .visited

def checkedEvents : Except RangeError (List Event) := do
  let banks ← (List.range rom.bankCount).mapM rom.checkedBankEvents
  return (if rom.trailingBytes = 0 then [] else [.trailing rom.trailingBytes]) ++ banks.flatten

theorem checkedVisit_eq {cursor : Nat} (h : cursor < (rom.bankRange bank).stop) :
    rom.checkedVisit bank cursor = .ok (rom.visitAt decode bank cursor) := by
  have hstop := rom.bankRange_stop_le_size bank
  rw [checkedVisit, visitAt]
  split
  · rw [bind_of_eq_ok (byteAt_eq_ok (Nat.lt_of_lt_of_le h hstop))]
    rfl
  · rw [bind_of_eq_ok (slice_eq_ok ⟨cursor, _⟩ (Nat.le_of_lt h) hstop),
      bind_of_eq_ok (checkedDecode_eq _)]
    rfl

theorem checkedVisits_eq (cursor : Nat) :
    rom.checkedVisits bank cursor =
      .ok ((rom.walk decode bank).visits 0 cursor (rom.windowAt bank cursor).bytes) := by
  refine rom.walk_induction decode bank
    (motive := fun cursor visits => rom.checkedVisits bank cursor = .ok visits) ?_ ?_ cursor
  · intro cursor hstop
    rw [checkedVisits, if_neg (by omega)]
  · intro cursor visits hlt ih
    rw [checkedVisits, if_pos hlt, bind_of_eq_ok (rom.checkedVisit_eq bank hlt), Visit.advance,
      length_visitAt, bind_of_eq_ok ih]
    rfl

theorem checkedBankEvents_eq : rom.checkedBankEvents bank = .ok (rom.bankEvents decode bank) := by
  rw [checkedBankEvents, bind_of_eq_ok (rom.checkedVisits_eq bank _), ← visits_eq_walk]
  rfl

theorem checkedEvents_eq : rom.checkedEvents = .ok (rom.events decode) := by
  have hbanks : (List.range rom.bankCount).mapM rom.checkedBankEvents =
      .ok ((List.range rom.bankCount).map (rom.bankEvents decode)) := by
    rw [funext rom.checkedBankEvents_eq]
    exact List.mapM_pure
  rw [checkedEvents, bind_of_eq_ok hbanks, events, List.flatMap_def]
  rfl

end Rom

/-- The listing of an image, made from checked reads. All reads of the walk are made, also those behind
an error that stops the listing. -/
def checkedDisassemble (options : Options) (rom : Rom) :
    Except RangeError (Except Failure String) := do
  return Listing.text options (← rom.checkedEvents)

theorem checkedDisassemble_eq (options : Options) (rom : Rom) :
    checkedDisassemble options rom = .ok (disassemble options rom) := by
  rw [checkedDisassemble, bind_of_eq_ok rom.checkedEvents_eq]
  rfl

end RomListing
