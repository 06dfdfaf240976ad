import RomListing.Proofs.CheckedReads
import RomListing.Proofs.InstructionTexts

/-! What comes of a window. The opcode, the number of bytes that may be read and, behind a stop, the byte
after it decide whether there is an instruction and how long it is. The values of other operands only
show in its text. -/

namespace RomListing

namespace Window

/-- The byte that a decoder takes for the opcode, zero if it may not read any. -/
def opcodeByte (window : Window) : UInt8 :=
  if window.available = 0 then 0 else window.bytes.headD 0

def opcode (window : Window) : Opcode := .ofByte window.opcodeByte

/-- Behind the opcode byte stands a zero that may be read. -/
def ZeroFollows (window : Window) : Prop := 2 ≤ window.available ∧ window.bytes[1]? = some 0

/-- A stop byte without the zero that belongs to it. -/
def IsCorruptedStop (window : Window) : Prop :=
  window.opcodeByte = Opcode.stopByte ∧ ¬window.ZeroFollows

/-- What is wrong with a window that makes no instruction. A stop is never cut short. -/
def HasFault (window : Window) : Fault → Prop
  | .undefinedOpcode => 1 ≤ window.available ∧ window.opcode = .undefined
  | .truncatedInstruction =>
      window.available = 0 ∨
        window.opcode ≠ .undefined ∧ window.opcode ≠ .stop ∧ window.available < window.opcode.length

variable {window : Window} {byte : UInt8} {rest : List UInt8}

/-- The bytes that may be read are those of the window, as far as they may be. -/
theorem getElem?_readable {index : Nat} (h : index < 3) :
    window.readable[index]? = if index < window.available then window.bytes[index]? else none := by
  rw [readable, List.getElem?_take, available]
  by_cases hlength : index < window.bytes.length
  · have hcount : index < min window.remaining 3 ↔
        index < min window.bytes.length window.remaining := by
      omega
    simp only [hcount]
  · rw [List.getElem?_eq_none (by omega), ite_self, ite_self]

theorem opcodeByte_of_readable (h : window.readable = byte :: rest) : window.opcodeByte = byte := by
  have hbyte : window.readable[0]? = some byte := by
    rw [h]
    rfl
  rw [getElem?_readable (by decide), Option.ite_none_right_eq_some] at hbyte
  rw [opcodeByte, if_neg (by omega), List.headD_eq_head?_getD, List.head?_eq_getElem?, hbyte.2]
  rfl

theorem zeroFollows_iff (h : window.readable = byte :: rest) :
    window.ZeroFollows ↔ rest.head? = some 0 := by
  have hnext : window.readable[1]? = rest.head? := by
    rw [h, List.getElem?_cons_succ, List.head?_eq_getElem?]
  rw [← hnext, getElem?_readable (by decide), Option.ite_none_right_eq_some]
  rfl

theorem available_lt_iff_of_readable (h : window.readable = byte :: rest) {count : Nat}
    (hcount : count ≤ 3) : window.available < count ↔ rest.length + 1 < count := by
  rw [window.available_lt_iff count hcount, h, List.length_cons]

/-- The outcomes of decoding, by what the window holds. -/
inductive Outcome (window : Window) : Except DecodeError Instruction → Prop
  | empty : window.available = 0 →
      Outcome window (.error ⟨.truncatedInstruction, window.opcodeByte, window.address⟩)
  | undefined : 1 ≤ window.available → window.opcode = .undefined →
      Outcome window (.error ⟨.undefinedOpcode, window.opcodeByte, window.address⟩)
  | cut : 1 ≤ window.available → window.opcode ≠ .undefined → window.opcode ≠ .stop →
      window.available < window.opcode.length →
      Outcome window (.error ⟨.truncatedInstruction, window.opcodeByte, window.address⟩)
  | corruptedStop : 1 ≤ window.available → window.opcode = .stop → ¬window.ZeroFollows →
      Outcome window (.ok (.data window.opcodeByte Note.corruptedStop))
  | whole {text : String} : 1 ≤ window.available → window.opcode ≠ .undefined →
      (window.opcode = .stop → window.ZeroFollows) → window.opcode.length ≤ window.available →
      Outcome window (.ok ⟨text, window.opcode.length⟩)

namespace Outcome

variable {opcode : Opcode} {text : String}

theorem cut_of_opcode (hsome : 1 ≤ window.available) (hopcode : window.opcode = opcode)
    (hundefined : opcode ≠ .undefined) (hstop : opcode ≠ .stop)
    (hshort : window.available < opcode.length) :
    Outcome window (.error ⟨.truncatedInstruction, window.opcodeByte, window.address⟩) := by
  subst hopcode
  exact .cut hsome hundefined hstop hshort

theorem whole_of_opcode (hopcode : window.opcode = opcode) (hundefined : opcode ≠ .undefined)
    (hstop : opcode = .stop → window.ZeroFollows) (hfits : opcode.length ≤ window.available) :
    Outcome window (.ok ⟨text, opcode.length⟩) := by
  subst hopcode
  exact .whole (Nat.le_trans window.opcode.length_pos hfits) hundefined hstop hfits

end Outcome

end Window

/-- An operand is read if its bytes are there. -/
theorem Operand.exists_text? {operand : Operand} {bytes : List UInt8}
    (h : operand.size ≤ bytes.length) (offset : UInt32) :
    ∃ text, operand.text? offset bytes = some text := by
  have hlength : (bytes.take operand.size).length = operand.size := List.length_take_of_le h
  obtain ⟨text, htext, _⟩ := operand.checkedText_eq offset hlength
  exact ⟨text, (operand.text?_take offset bytes).symm.trans htext⟩

/-- The outcome of an opcode byte that may be read, by the sort of its opcode. -/
theorem decodeOpcode_outcome {window : Window} {byte : UInt8} {rest : List UInt8}
    (hreadable : window.readable = byte :: rest) :
    window.Outcome (decodeOpcode window.address byte rest) := by
  have hbyte := Window.opcodeByte_of_readable hreadable
  have hzero := Window.zeroFollows_iff hreadable
  have hcount : ∀ count ≤ 3, window.available < count ↔ rest.length + 1 < count :=
    fun _ => Window.available_lt_iff_of_readable hreadable
  have hsome : 1 ≤ window.available := Nat.le_of_not_lt (mt (hcount 1 (by decide)).mp (by omega))
  have hopcodeOf : Opcode.ofByte byte = window.opcode := by rw [Window.opcode, hbyte]
  unfold decodeOpcode
  rw [hopcodeOf, ← hbyte]
  cases hopcode : window.opcode with
  | undefined => exact .undefined hsome hopcode
  | plain text => exact .whole_of_opcode hopcode nofun nofun hsome
  | stop =>
      by_cases hnext : rest.head? = some 0
      · have hfollows := hzero.mpr hnext
        simp only [if_pos hnext]
        exact .whole_of_opcode hopcode nofun (fun _ => hfollows) hfollows.1
      · simp only [if_neg hnext]
        exact .corruptedStop hsome hopcode (mt hzero.mp hnext)
  | extended =>
      have hcut := hcount 2 (by decide)
      cases rest with
      | nil => exact .cut_of_opcode hsome hopcode nofun nofun (hcut.mpr (by decide))
      | cons selector tail =>
          have hfits : ¬window.available < 2 := by simp [hcut]
          exact .whole_of_opcode hopcode nofun nofun (Nat.le_of_not_lt hfits)
  | withOperand before operand after =>
      have hlength : window.opcode.length = 1 + operand.size := by
        rw [hopcode]
        rfl
      have hcut := hcount _ (hlength ▸ window.opcode.length_le)
      by_cases hshort : rest.length < operand.size
      · simp only [Operand.text?_eq_none hshort]
        exact .cut_of_opcode hsome hopcode nofun nofun (hcut.mpr (by omega))
      · obtain ⟨text, htext⟩ := Operand.exists_text? (Nat.le_of_not_lt hshort) window.address
        simp only [htext]
        exact .whole_of_opcode hopcode nofun nofun (Nat.le_of_not_lt (mt hcut.mp (by omega)))

/-- Every window has one of the outcomes. -/
theorem decode_outcome (window : Window) : window.Outcome (decode window) := by
  unfold decode
  cases hreadable : window.readable with
  | cons byte rest => exact decodeOpcode_outcome hreadable
  | nil =>
      have hempty := window.available_lt_iff 1 (by decide)
      rw [hreadable, List.length_nil] at hempty
      have hnone : window.available = 0 := by omega
      have hbyte : window.opcodeByte = 0 := by rw [Window.opcodeByte, if_pos hnone]
      simp only
      rw [← hbyte]
      exact .empty hnone

section

variable {window : Window}

theorem hasFault_of_decode {error : DecodeError} (h : decode window = .error error) :
    window.HasFault error.fault ∧ error.opcode = window.opcodeByte ∧
      error.address = window.address := by
  have houtcome := decode_outcome window
  rw [h] at houtcome
  cases houtcome with
  | empty hnone => exact ⟨.inl hnone, rfl, rfl⟩
  | undefined hsome hopcode => exact ⟨⟨hsome, hopcode⟩, rfl, rfl⟩
  | cut _ hundefined hstop hshort => exact ⟨.inr ⟨hundefined, hstop, hshort⟩, rfl, rfl⟩

/-- A fault is told, with the byte and the address of the opcode. -/
theorem Window.HasFault.decode_eq {fault : Fault} (h : window.HasFault fault) :
    decode window = .error ⟨fault, window.opcodeByte, window.address⟩ := by
  have houtcome := decode_outcome window
  generalize decode window = result at houtcome ⊢
  cases fault with
  | undefinedOpcode =>
      obtain ⟨hsome, hopcode⟩ := h
      cases houtcome with
      | undefined _ _ => rfl
      | empty hnone => omega
      | cut _ hundefined _ _ => exact absurd hopcode hundefined
      | corruptedStop _ hstop _ => simp [hopcode] at hstop
      | whole _ hundefined _ _ => exact absurd hopcode hundefined
  | truncatedInstruction =>
      cases houtcome with
      | empty _ => rfl
      | cut _ _ _ _ => rfl
      | undefined hsome hopcode =>
          rcases h with hnone | ⟨hundefined, _, _⟩
          · omega
          · exact absurd hopcode hundefined
      | corruptedStop hsome hopcode _ =>
          rcases h with hnone | ⟨_, hstop, _⟩
          · omega
          · exact absurd hopcode hstop
      | whole hsome _ _ hfits => rcases h with hnone | ⟨_, _, hshort⟩ <;> omega

theorem decode_eq_error_iff {fault : Fault} {byte : UInt8} :
    decode window = .error ⟨fault, byte, window.address⟩ ↔
      window.HasFault fault ∧ window.opcodeByte = byte := by
  constructor
  · intro h
    obtain ⟨hfault, hbyte, _⟩ := hasFault_of_decode h
    exact ⟨hfault, hbyte.symm⟩
  · rintro ⟨hfault, rfl⟩
    exact hfault.decode_eq

theorem exists_error_iff (fault : Fault) :
    (∃ error, decode window = .error error ∧ error.fault = fault) ↔ window.HasFault fault := by
  constructor
  · rintro ⟨error, herror, rfl⟩
    exact (hasFault_of_decode herror).1
  · intro h
    exact ⟨_, h.decode_eq, rfl⟩

theorem exists_instruction (htruncated : ¬window.HasFault .truncatedInstruction)
    (hundefined : ¬window.HasFault .undefinedOpcode) :
    ∃ instruction, decode window = .ok instruction := by
  cases hresult : decode window with
  | ok instruction => exact ⟨instruction, rfl⟩
  | error error =>
      obtain ⟨hfault, _, _⟩ := hasFault_of_decode hresult
      cases hkind : error.fault with
      | undefinedOpcode => exact absurd (hkind ▸ hfault) hundefined
      | truncatedInstruction => exact absurd (hkind ▸ hfault) htruncated

theorem Window.opcode_eq_stop_iff : window.opcode = .stop ↔ window.opcodeByte = Opcode.stopByte :=
  ⟨Reassembly.eq_stopByte, fun h => by rw [opcode, h, Opcode.ofByte_stopByte]⟩

/-- A stop byte that no zero follows is kept as data, any other opcode takes all its bytes. -/
theorem instruction_of_decode {instruction : Instruction} (h : decode window = .ok instruction) :
    (window.IsCorruptedStop → instruction = ⟨"db $10 ; corrupted stop", 1⟩) ∧
      (¬window.IsCorruptedStop → instruction.length = window.opcode.length) := by
  have houtcome := decode_outcome window
  rw [h] at houtcome
  cases houtcome with
  | corruptedStop _ hopcode hzero =>
      have hbyte := Window.opcode_eq_stop_iff.mp hopcode
      have hdata : Instruction.data Opcode.stopByte Note.corruptedStop =
          ⟨"db $10 ; corrupted stop", 1⟩ := by
        decide
      exact ⟨fun _ => by rw [hbyte, hdata], fun hintact => absurd ⟨hbyte, hzero⟩ hintact⟩
  | whole _ _ hzero _ =>
      refine ⟨fun hcorrupted => ?_, fun _ => rfl⟩
      exact absurd (hzero (Window.opcode_eq_stop_iff.mpr hcorrupted.1)) hcorrupted.2

theorem length_bounds_of_decode {instruction : Instruction} (h : decode window = .ok instruction) :
    1 ≤ instruction.length ∧ instruction.length ≤ min 3 window.available := by
  have houtcome := decode_outcome window
  rw [h] at houtcome
  cases houtcome with
  | corruptedStop hsome _ _ => exact ⟨Nat.le_refl _, Nat.le_min.mpr ⟨Nat.le_add_left _ _, hsome⟩⟩
  | whole _ _ _ hfits =>
      exact ⟨window.opcode.length_pos, Nat.le_min.mpr ⟨window.opcode.length_le, hfits⟩⟩

end

/-- **Outcomes of decoding.** A window is cut short, has an undefined opcode, or makes an instruction of as
many bytes as its opcode asks for. Only a stop that no zero follows is kept as data instead. -/
theorem decode_classifies_windows (window : Window) :
    ((∃ error, decode window = .error error ∧ error.fault = .truncatedInstruction) ↔
      window.available = 0 ∨ window.opcode ≠ .undefined ∧ window.opcode ≠ .stop ∧
        window.available < window.opcode.length) ∧
    ((∃ error, decode window = .error error ∧ error.fault = .undefinedOpcode) ↔
      1 ≤ window.available ∧ window.opcode = .undefined) ∧
    (¬window.HasFault .truncatedInstruction → ¬window.HasFault .undefinedOpcode →
      ∃ instruction, decode window = .ok instruction ∧
        (window.IsCorruptedStop → instruction = ⟨"db $10 ; corrupted stop", 1⟩) ∧
        (¬window.IsCorruptedStop → instruction.length = window.opcode.length)) ∧
    (∀ error, decode window = .error error →
      error.opcode = window.opcodeByte ∧ error.address = window.address) ∧
    (∀ instruction, decode window = .ok instruction →
      1 ≤ instruction.length ∧ instruction.length ≤ min 3 window.available) ∧
    ∀ (other : Window) (instruction found : Instruction), decode window = .ok instruction →
      decode other = .ok found → other.opcodeByte = window.opcodeByte →
      (window.opcodeByte = Opcode.stopByte → (other.ZeroFollows ↔ window.ZeroFollows)) →
      found.length = instruction.length := by
  refine ⟨exists_error_iff .truncatedInstruction, exists_error_iff .undefinedOpcode, ?_, ?_, ?_, ?_⟩
  · intro htruncated hundefined
    obtain ⟨instruction, hinstruction⟩ := exists_instruction htruncated hundefined
    exact ⟨instruction, hinstruction, instruction_of_decode hinstruction⟩
  · intro error herror
    exact (hasFault_of_decode herror).2
  · intro instruction hinstruction
    exact length_bounds_of_decode hinstruction
  · intro other instruction found hinstruction hfound hbyte hzero
    obtain ⟨hdata, hlength⟩ := instruction_of_decode hinstruction
    obtain ⟨hotherData, hotherLength⟩ := instruction_of_decode hfound
    have hopcode : other.opcode = window.opcode := by rw [Window.opcode, hbyte, Window.opcode]
    have hcorrupted : other.IsCorruptedStop ↔ window.IsCorruptedStop := by
      rw [Window.IsCorruptedStop, hbyte]
      exact and_congr_right fun hstop => not_congr (hzero hstop)
    by_cases hwindow : window.IsCorruptedStop
    · rw [hdata hwindow, hotherData (hcorrupted.mpr hwindow)]
    · rw [hlength hwindow, hotherLength (mt hcorrupted.mp hwindow), hopcode]

/-- A stop in front of a zero that lies in the next bank is kept as data, and takes no more bytes than one
in front of another byte. A jump that reaches into the next bank is cut short. -/
theorem decode_at_bank_end :
    (∃ instruction found, decode ⟨[0x10, 0x00], 1, 0x3fff⟩ = .ok instruction ∧
      instruction = ⟨"db $10 ; corrupted stop", 1⟩ ∧
      1 ≤ instruction.length ∧ instruction.length ≤ 1 ∧
      decode ⟨[0x10, 0x07, 0x00], 3, 0x0150⟩ = .ok found ∧ found.length = instruction.length) ∧
    ∃ error, decode ⟨[0xc3, 0x34, 0x12], 2, 0x3ffe⟩ = .error error ∧
      error.fault = .truncatedInstruction ∧ error.opcode = 0xc3 ∧ error.address = 0x3ffe := by
  have hzero : ¬(Window.mk [0x10, 0x00] 1 0x3fff).ZeroFollows := fun h => absurd h.1 (by decide)
  have hother : ¬(Window.mk [0x10, 0x07, 0x00] 3 0x0150).ZeroFollows := fun h => absurd h.2 (by decide)
  obtain ⟨_, _, hmade, _, hbounds, hsame⟩ := decode_classifies_windows ⟨[0x10, 0x00], 1, 0x3fff⟩
  obtain ⟨hcut, _, _, htold, _⟩ := decode_classifies_windows ⟨[0xc3, 0x34, 0x12], 2, 0x3ffe⟩
  constructor
  · have htruncated : ¬(Window.mk [0x10, 0x00] 1 0x3fff).HasFault .truncatedInstruction := by
      rintro (hnone | ⟨_, hstop, _⟩)
      · exact absurd hnone (by decide)
      · exact hstop rfl
    have hundefined : ¬(Window.mk [0x10, 0x00] 1 0x3fff).HasFault .undefinedOpcode :=
      fun h => absurd h.2 (by decide)
    obtain ⟨instruction, hinstruction, hdata, _⟩ := hmade htruncated hundefined
    obtain ⟨hpos, hle⟩ := hbounds instruction hinstruction
    have hfound : decode ⟨[0x10, 0x07, 0x00], 3, 0x0150⟩ =
        .ok ⟨"db $10 ; corrupted stop", 1⟩ := by
      decide
    exact ⟨instruction, _, hinstruction, hdata ⟨rfl, hzero⟩, hpos, hle, hfound,
      hsame _ instruction _ hinstruction hfound rfl fun _ => iff_of_false hother hzero⟩
  · obtain ⟨error, herror, hfault⟩ := hcut.mpr (.inr ⟨by decide, by decide, by decide⟩)
    exact ⟨error, herror, hfault, htold error herror⟩

end RomListing
