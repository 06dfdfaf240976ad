import RomListing.Decode

/-! What decoding finds, case by case. An instruction is related to the readable bytes it was found
in, so that facts about instructions are proved along the kinds of opcodes and `decode` itself is
opened once. -/

namespace RomListing

/-- The instructions by the bytes that may be read for them, for an opcode at the image offset
`address`. -/
inductive Decodes (address : UInt32) : List UInt8 → Instruction → Prop
  | plain {byte : UInt8} {rest : List UInt8} {text : String} :
      Opcode.ofByte byte = .plain text → Decodes address (byte :: rest) ⟨text, 1⟩
  | stop {byte : UInt8} {rest : List UInt8} :
      Opcode.ofByte byte = .stop → Decodes address (byte :: 0 :: rest) ⟨"stop", 2⟩
  | corruptedStop {byte : UInt8} {rest : List UInt8} :
      Opcode.ofByte byte = .stop → rest.head? ≠ some 0 →
      Decodes address (byte :: rest) (.data byte Note.corruptedStop)
  | extended {byte selector : UInt8} {rest : List UInt8} :
      Opcode.ofByte byte = .extended →
      Decodes address (byte :: selector :: rest) ⟨(Extended.ofByte selector).text, 2⟩
  | withOperand {byte : UInt8} {rest : List UInt8} {before after text : String}
      {operand : Operand} :
      Opcode.ofByte byte = .withOperand before operand after →
      operand.text? address rest = some text →
      Decodes address (byte :: rest) ⟨before ++ text ++ after, 1 + operand.size⟩

theorem decodeOpcode_eq_ok {address : UInt32} {byte : UInt8} {rest : List UInt8}
    {instruction : Instruction} (h : decodeOpcode address byte rest = .ok instruction) :
    Decodes address (byte :: rest) instruction := by
  unfold decodeOpcode at h
  split at h
  · contradiction
  · rename_i hopcode
    split at h
    · rename_i hzero
      obtain ⟨tail, rfl⟩ := List.head?_eq_some_iff.mp hzero
      cases h
      exact .stop hopcode
    · rename_i hzero
      cases h
      exact .corruptedStop hopcode hzero
  · rename_i hopcode
    cases h
    exact .plain hopcode
  · rename_i hopcode
    split at h
    · contradiction
    · cases h
      exact .extended hopcode
  · rename_i hopcode
    split at h
    · contradiction
    · rename_i htext
      cases h
      exact .withOperand hopcode htext

theorem decode_eq_ok {window : Window} {instruction : Instruction}
    (h : decode window = .ok instruction) :
    Decodes window.address window.readable instruction := by
  unfold decode at h
  split at h
  · contradiction
  · rename_i hreadable
    rw [hreadable]
    exact decodeOpcode_eq_ok h

theorem decodeOpcode_eq_error {address : UInt32} {byte : UInt8} {rest : List UInt8}
    {error : DecodeError} (h : decodeOpcode address byte rest = .error error) :
    error = ⟨error.fault, byte, address⟩ := by
  unfold decodeOpcode at h
  split at h
  · cases h
    rfl
  · split at h <;> contradiction
  · contradiction
  · split at h
    · cases h
      rfl
    · contradiction
  · split at h
    · cases h
      rfl
    · contradiction

/-- An error names the first readable byte and the address of the window. -/
theorem decode_eq_error {window : Window} {error : DecodeError}
    (h : decode window = .error error) :
    error = ⟨error.fault, window.readable.headD 0, window.address⟩ := by
  unfold decode at h
  split at h
  · rename_i hreadable
    cases h
    rw [hreadable]
    rfl
  · rename_i hreadable
    rw [hreadable]
    exact decodeOpcode_eq_error h

/-- A window of two bytes at least lets a decoder read both. -/
theorem Window.readable_of_two {window : Window} {byte value : UInt8} {rest : List UInt8}
    (hbytes : window.bytes = byte :: value :: rest) (hremaining : 2 ≤ window.remaining) :
    ∃ tail, window.readable = byte :: value :: tail := by
  obtain ⟨count, hcount⟩ : ∃ count, min window.remaining 3 = count + 2 :=
    Nat.exists_eq_add_of_le' (by omega)
  exact ⟨rest.take count, by rw [readable, hbytes, hcount, List.take_succ_cons, List.take_succ_cons]⟩

theorem Decodes.decodeOpcode_eq {address : UInt32} {byte : UInt8} {rest : List UInt8}
    {instruction : Instruction} (h : Decodes address (byte :: rest) instruction) :
    decodeOpcode address byte rest = .ok instruction := by
  unfold decodeOpcode
  cases h with
  | plain hopcode => rw [hopcode]
  | stop hopcode =>
      rw [hopcode]
      rfl
  | corruptedStop hopcode hzero =>
      rw [hopcode]
      exact if_neg hzero
  | extended hopcode => rw [hopcode]
  | withOperand hopcode htext =>
      rw [hopcode]
      simp only [htext]

/-- A decoder finds exactly the instructions that stand in the readable bytes. -/
theorem decode_eq_ok_iff {window : Window} {instruction : Instruction} :
    decode window = .ok instruction ↔ Decodes window.address window.readable instruction := by
  refine ⟨decode_eq_ok, fun h => ?_⟩
  unfold decode
  cases hreadable : window.readable with
  | nil =>
      rw [hreadable] at h
      cases h
  | cons byte rest =>
      rw [hreadable] at h
      exact h.decodeOpcode_eq

/-- An operand is read from bytes that are there. -/
theorem Operand.size_le_of_text? {operand : Operand} {offset : UInt32} {bytes : List UInt8}
    {text : String} (h : operand.text? offset bytes = some text) : operand.size ≤ bytes.length := by
  cases operand <;> rcases bytes with _ | ⟨low, _ | ⟨high, rest⟩⟩ <;>
    simp [Operand.text?, Operand.size] at h ⊢

/-- An operand takes as many bytes as its size tells, whatever comes behind them. -/
theorem Operand.text?_take (operand : Operand) (offset : UInt32) (bytes : List UInt8) :
    operand.text? offset (bytes.take operand.size) = operand.text? offset bytes := by
  cases operand <;> rcases bytes with _ | ⟨low, _ | ⟨high, rest⟩⟩ <;> rfl

namespace Decodes

variable {address : UInt32} {bytes : List UInt8} {instruction other : Instruction}

theorem length_pos (h : Decodes address bytes instruction) : 1 ≤ instruction.length := by
  cases h with
  | plain _ => exact Nat.le_refl _
  | stop _ => exact Nat.le_succ _
  | corruptedStop _ _ => exact Nat.le_refl _
  | extended _ => exact Nat.le_succ _
  | withOperand _ _ => exact Nat.le_add_right _ _

/-- An instruction covers readable bytes only. -/
theorem length_le (h : Decodes address bytes instruction) :
    instruction.length ≤ bytes.length := by
  cases h with
  | plain _ => simp
  | stop _ => simp
  | corruptedStop _ _ => simp [Instruction.data]
  | extended _ => simp
  | withOperand _ htext =>
      have := Operand.size_le_of_text? htext
      simp only [List.length_cons]
      omega

/-- Bytes are no more than one instruction. -/
theorem unique (h : Decodes address bytes instruction) (hother : Decodes address bytes other) :
    instruction = other := by
  cases bytes with
  | nil => cases h
  | cons byte rest =>
      exact Except.ok.inj (h.decodeOpcode_eq.symm.trans hother.decodeOpcode_eq)

/-- An instruction is found in the bytes it covers, without those behind them. -/
theorem take (h : Decodes address bytes instruction) :
    Decodes address (bytes.take instruction.length) instruction := by
  cases h with
  | plain hopcode => exact .plain hopcode
  | stop hopcode => exact .stop hopcode
  | corruptedStop hopcode _ => exact .corruptedStop hopcode (by simp)
  | extended hopcode => exact .extended hopcode
  | @withOperand byte rest before after text operand hopcode htext =>
      rw [Nat.add_comm, List.take_succ_cons, Nat.add_comm]
      exact .withOperand hopcode ((operand.text?_take address rest).trans htext)

/-- The bytes that an instruction covers tell it. -/
theorem eq_of_take {others : List UInt8} (h : Decodes address bytes instruction)
    (hother : Decodes address others other)
    (heq : bytes.take instruction.length = others.take other.length) : instruction = other := by
  have htake := h.take
  rw [heq] at htake
  exact htake.unique hother.take

/-- The bytes that an instruction covers stand in the window itself. -/
theorem take_readable {window : Window} (h : Decodes address window.readable instruction) :
    window.readable.take instruction.length = window.bytes.take instruction.length := by
  have hle := h.length_le
  rw [Window.readable, List.length_take] at hle
  rw [Window.readable, List.take_take, Nat.min_eq_left (by omega)]

/-! ### Relative jumps -/

section Jump

variable {byte : UInt8} {before after : String}
  (hopcode : Opcode.ofByte byte = .withOperand before .distance after)

include hopcode

/-- A jump is found in its two bytes. -/
theorem jump (address : UInt32) (value : UInt8) (rest : List UInt8) :
    Decodes address (byte :: value :: rest)
      ⟨before ++ Hex.literal 4 (jumpTarget (addressAfter address 2) value.toInt8).toNat ++ after, 2⟩ :=
  .withOperand hopcode rfl

/-- What is found behind the opcode of a jump is a jump. -/
theorem exists_jump {rest : List UInt8} (h : Decodes address (byte :: rest) instruction) :
    ∃ value tail, rest = value :: tail ∧ instruction =
      ⟨before ++ Hex.literal 4 (jumpTarget (addressAfter address 2) value.toInt8).toNat ++ after, 2⟩ := by
  cases rest with
  | nil =>
      have hdecode := h.decodeOpcode_eq
      unfold decodeOpcode at hdecode
      rw [hopcode] at hdecode
      contradiction
  | cons value tail => exact ⟨value, tail, rfl, h.unique (jump hopcode address value tail)⟩

end Jump

end Decodes

end RomListing
