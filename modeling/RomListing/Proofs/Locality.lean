import RomListing.Proofs.Outcomes

/-! What decoding depends on. It reads no byte that it may not read and none behind the third one, so a
window can be cut down to these bytes. And it goes no further than it must: an instruction is found
wherever its bytes stand, whatever follows them, and missing bytes are all that a truncated one lacks. A
stop that is kept as data is the exception, since the byte behind it decides. -/

namespace RomListing

/-- An operand that is there is not changed by the bytes behind it. -/
theorem Operand.text?_append {operand : Operand} {offset : UInt32} {bytes : List UInt8}
    {text : String} (h : operand.text? offset bytes = some text) (more : List UInt8) :
    operand.text? offset (bytes ++ more) = some text := by
  rw [← operand.text?_take, List.take_append_of_le_length (size_le_of_text? h), operand.text?_take, h]

/-- An instruction is found whatever stands behind it, unless it is a stop kept as data. -/
theorem Decodes.append {address : UInt32} {bytes : List UInt8} {instruction : Instruction}
    (h : Decodes address bytes instruction)
    (hintact : instruction ≠ .data Opcode.stopByte Note.corruptedStop) (more : List UInt8) :
    Decodes address (bytes ++ more) instruction := by
  cases h with
  | plain hopcode => exact .plain hopcode
  | stop hopcode => exact .stop hopcode
  | corruptedStop hopcode _ =>
      rw [Reassembly.eq_stopByte hopcode] at hintact
      exact absurd rfl hintact
  | extended hopcode => exact .extended hopcode
  | withOperand hopcode htext => exact .withOperand hopcode (Operand.text?_append htext more)

namespace Window

variable {window : Window} {byte : UInt8}

theorem head?_of_available (h : 1 ≤ window.available) :
    window.bytes.head? = some window.opcodeByte := by
  have hnil : window.bytes ≠ [] := by
    intro hnil
    rw [available, hnil] at h
    simp at h
  rw [opcodeByte, if_neg (by omega), List.headD_eq_head?_getD, List.head?_eq_some_head hnil]
  rfl

theorem opcodeByte_of_head? (hbyte : window.bytes.head? = some byte)
    (hremaining : 1 ≤ window.remaining) : 1 ≤ window.available ∧ window.opcodeByte = byte := by
  obtain ⟨rest, hrest⟩ := List.head?_eq_some_iff.mp hbyte
  have hsome : 1 ≤ window.available := by
    rw [available, hrest, List.length_cons]
    omega
  have hhead := head?_of_available hsome
  rw [hbyte] at hhead
  exact ⟨hsome, (Option.some_inj.mp hhead).symm⟩

/-- The window cut down to the bytes that may be read. -/
def narrowed (window : Window) : Window :=
  ⟨window.bytes.take (min window.available 3), min window.available 3, window.address⟩

theorem readable_narrowed (window : Window) : window.narrowed.readable = window.readable := by
  rw [readable, readable, narrowed, List.take_take, List.take_eq_take_iff, available]
  simp only
  omega

end Window

variable {window other : Window} {error : DecodeError}

theorem decode_congr (haddress : other.address = window.address)
    (hreadable : other.readable = window.readable) : decode other = decode window := by
  unfold decode
  rw [hreadable, haddress]

/-- An instruction stays the same in all windows that start with its bytes. -/
theorem decode_of_take_isPrefix {instruction : Instruction} (h : decode window = .ok instruction)
    (hintact : instruction ≠ .data Opcode.stopByte Note.corruptedStop)
    (haddress : other.address = window.address)
    (hinitial : window.bytes.take instruction.length <+: other.bytes)
    (hremaining : instruction.length ≤ other.remaining) : decode other = .ok instruction := by
  have hdecodes := decode_eq_ok h
  have hbounds := length_bounds_of_decode h
  have hcovered : Decodes window.address (window.bytes.take instruction.length) instruction := by
    rw [← hdecodes.take_readable]
    exact hdecodes.take
  obtain ⟨more, hmore⟩ : window.bytes.take instruction.length <+: other.readable := by
    refine List.prefix_take_iff.mpr ⟨hinitial, ?_⟩
    rw [List.length_take]
    omega
  rw [decode_eq_ok_iff, haddress, ← hmore]
  exact hcovered.append hintact more

/-- An undefined opcode stays undefined, whatever stands behind it. -/
theorem decode_of_head?_eq (h : decode window = .error error)
    (hfault : error.fault = .undefinedOpcode) (haddress : other.address = window.address)
    (hhead : other.bytes.head? = window.bytes.head?) (hremaining : 1 ≤ other.remaining) :
    decode other = .error error := by
  obtain ⟨hundefined, hopcode, herror⟩ := hasFault_of_decode h
  rw [hfault] at hundefined
  obtain ⟨hsome, hundefined⟩ := hundefined
  rw [Window.head?_of_available hsome] at hhead
  obtain ⟨hotherSome, hbyte⟩ := Window.opcodeByte_of_head? hhead hremaining
  have hother : other.HasFault .undefinedOpcode := by
    refine ⟨hotherSome, ?_⟩
    rw [Window.opcode, hbyte]
    exact hundefined
  rw [hother.decode_eq, hbyte, haddress, ← hfault, ← hopcode, ← herror]

/-- An instruction that is cut short is whole once its missing bytes are there. -/
theorem exists_instruction_of_truncated (h : decode window = .error error)
    (hfault : error.fault = .truncatedInstruction) (hsome : 1 ≤ window.available)
    (hinitial : window.bytes.take window.available <+: other.bytes)
    (hlength : window.opcode.length ≤ other.available) :
    ∃ instruction, decode other = .ok instruction ∧ window.available < instruction.length := by
  obtain ⟨htruncated, _, _⟩ := hasFault_of_decode h
  rw [hfault] at htruncated
  obtain hnone | ⟨hdefined, hstop, hshort⟩ := htruncated
  · omega
  have hotherSome : 1 ≤ other.available := by omega
  have hopcode : other.opcode = window.opcode := by
    obtain ⟨more, hmore⟩ := hinitial
    have hhead := Window.head?_of_available hotherSome
    rw [← hmore, List.head?_append, List.head?_take, if_neg (by omega),
      Window.head?_of_available hsome, Option.some_or, Option.some_inj] at hhead
    rw [Window.opcode, ← hhead, Window.opcode]
  have htruncated : ¬other.HasFault .truncatedInstruction := by
    rintro (hnone | ⟨_, _, hotherShort⟩)
    · omega
    · rw [hopcode] at hotherShort
      omega
  have hundefined : ¬other.HasFault .undefinedOpcode := fun h => hdefined (hopcode ▸ h.2)
  have hintact : ¬other.IsCorruptedStop := by
    rintro ⟨hbyte, _⟩
    exact hstop (hopcode ▸ Window.opcode_eq_stop_iff.mpr hbyte)
  obtain ⟨instruction, hinstruction⟩ := exists_instruction htruncated hundefined
  refine ⟨instruction, hinstruction, ?_⟩
  rw [(instruction_of_decode hinstruction).2 hintact, hopcode]
  exact hshort

/-- **Locality of decoding.** A decoder looks at three bytes at most, and finds an instruction or an
undefined opcode again in every window that starts with its bytes. What is cut short is found in windows
that hold as many bytes as its opcode asks for. -/
theorem decode_is_local (window : Window) :
    decode window = decode ⟨window.bytes.take (min (min window.bytes.length window.remaining) 3),
      min (min window.bytes.length window.remaining) 3, window.address⟩ ∧
    (∀ others : List UInt8,
      others.take (min window.remaining 3) = window.bytes.take (min window.remaining 3) →
      decode ⟨others, window.remaining, window.address⟩ = decode window) ∧
    (∀ instruction, decode window = .ok instruction →
      instruction ≠ .data Opcode.stopByte Note.corruptedStop →
      ∀ other : Window, other.address = window.address →
        window.bytes.take instruction.length <+: other.bytes →
        instruction.length ≤ other.remaining → decode other = .ok instruction) ∧
    (∀ error, decode window = .error error → error.fault = .undefinedOpcode →
      ∀ other : Window, other.address = window.address → other.bytes.head? = window.bytes.head? →
        1 ≤ other.remaining → decode other = .error error) ∧
    ∀ error, decode window = .error error → error.fault = .truncatedInstruction →
      1 ≤ window.available →
      ∀ other : Window, other.address = window.address →
        window.bytes.take window.available <+: other.bytes →
        window.opcode.length ≤ other.available →
        ∃ instruction, decode other = .ok instruction ∧ window.available < instruction.length := by
  refine ⟨?_, ?_, ?_, ?_, ?_⟩
  · have hnarrowed : decode window.narrowed = decode window :=
      decode_congr rfl window.readable_narrowed
    exact hnarrowed.symm
  · intro others hothers
    exact decode_congr rfl hothers
  · intro instruction h hintact other
    exact decode_of_take_isPrefix h hintact
  · intro error h hfault other
    exact decode_of_head?_eq h hfault
  · intro error h hfault hsome other _
    exact exists_instruction_of_truncated h hfault hsome

/-- A stop with its zero and an undefined opcode stay what they are in longer windows, and a load that
lacks its third byte is whole once it is there. -/
theorem decode_of_longer_windows :
    decode ⟨[0x10, 0x00, 0x3e], 3, 0x0150⟩ = .ok ⟨"stop", 2⟩ ∧
      decode ⟨[0xd3, 0x12], 2, 0x0150⟩ = .error ⟨.undefinedOpcode, 0xd3, 0x0150⟩ ∧
      (∃ instruction, decode ⟨[0x01, 0x34, 0x12], 3, 0x0150⟩ = .ok instruction ∧
        2 < instruction.length) ∧
      decode ⟨[0x01, 0x34, 0x12], 2, 0x0150⟩ =
        .error ⟨.truncatedInstruction, 0x01, 0x0150⟩ := by
  have hstop : decode ⟨[0x10, 0x00], 2, 0x0150⟩ = .ok ⟨"stop", 2⟩ := by decide
  have hundefined : decode ⟨[0xd3], 1, 0x0150⟩ = .error ⟨.undefinedOpcode, 0xd3, 0x0150⟩ := by decide
  have hload : decode ⟨[0x01, 0x34], 2, 0x0150⟩ = .error ⟨.truncatedInstruction, 0x01, 0x0150⟩ := by
    decide
  obtain ⟨_, _, hfound, _, _⟩ := decode_is_local ⟨[0x10, 0x00], 2, 0x0150⟩
  obtain ⟨_, _, _, hstays, _⟩ := decode_is_local ⟨[0xd3], 1, 0x0150⟩
  obtain ⟨_, hbehind, _, _, hgrows⟩ := decode_is_local ⟨[0x01, 0x34], 2, 0x0150⟩
  refine ⟨?_, ?_, ?_, ?_⟩
  · exact hfound _ hstop (by decide) _ rfl (by decide) (by decide)
  · exact hstays _ hundefined rfl _ rfl rfl (by decide)
  · exact hgrows _ hload rfl (by decide) _ rfl (by decide) (by decide)
  · exact (hbehind [0x01, 0x34, 0x12] rfl).trans hload

end RomListing
