import RomListing.Proofs.ReadBack

/-! Instructions and their texts. At one offset of an image two instructions have the same text exactly
if they are made of the same bytes, so a text stands for one instruction. The one exception are relative
jumps that lead to `$0000` or would lead below it: they are all printed alike. -/

namespace RomListing

/-- Between the same texts, the same digits. -/
theorem Hex.literal_inj {width n m : Nat} {before after : String}
    (h : before ++ Hex.literal width n ++ after = before ++ Hex.literal width m ++ after) : n = m := by
  have hchars := congrArg String.toList h
  simp only [String.toList_append, Hex.toList_literal, List.append_assoc] at hchars
  have hdigits := List.append_cancel_left hchars
  rw [List.cons_append, List.cons_append, List.cons_inj_right] at hdigits
  exact Hex.digits_inj (List.append_cancel_right hdigits)

/-- A text tells one sequence of bytes. -/
theorem Tells.bytes_eq {address : UInt32} {instruction other : Instruction} {bytes others : List UInt8}
    (h : Tells address instruction bytes) (hother : Tells address other others)
    (htext : instruction.text = other.text) : bytes = others := by
  obtain ⟨source, hsource, hbytes⟩ := h
  obtain ⟨otherSource, hotherSource, hothers⟩ := hother
  have hsame : source = otherSource := by
    rw [← hsource.dropNote_toList, htext, hotherSource.dropNote_toList]
  subst hsame
  exact Option.some_inj.mp (hbytes.symm.trans hothers)

theorem head?_eq_of_isPrefix {bytes found : List UInt8} (h : bytes <+: found)
    (hpos : 1 ≤ bytes.length) : bytes.head? = found.head? := by
  rw [List.head?_eq_getElem?, List.head?_eq_getElem?, getElem?_eq_of_isPrefix h hpos]

/-- Bytes at an image offset that start with a relative jump by this opcode, with a target that does not
lie above `$0000` in integers. -/
def JumpsToStart (address : UInt32) (opcode : UInt8) (bytes : List UInt8) : Prop :=
  ∃ value rest before after, bytes = opcode :: value :: rest ∧
    Opcode.ofByte opcode = .withOperand before .distance after ∧
    rawTarget (UInt32.ofNat (min (address.toNat + 2) 0xffffffff)) value.toInt8 ≤ 0

theorem JumpsToStart.of_readable {window : Window} {opcode : UInt8}
    (h : JumpsToStart window.address opcode window.readable) :
    JumpsToStart window.address opcode window.bytes := by
  obtain ⟨value, rest, before, after, hbytes, hopcode⟩ := h
  obtain ⟨tail, htail⟩ : window.readable <+: window.bytes := List.take_prefix _ _
  refine ⟨value, rest ++ tail, before, after, ?_, hopcode⟩
  rw [← htail, hbytes, List.cons_append, List.cons_append]

theorem IsHeldJump.jumpsToStart {address : UInt32} {bytes : List UInt8} (h : IsHeldJump address bytes) :
    ∃ opcode, JumpsToStart address opcode bytes := by
  obtain ⟨opcode, value, rest, before, after, hbytes, hopcode, hneg⟩ := h
  exact ⟨opcode, value, rest, before, after, hbytes, hopcode, Int.le_of_lt hneg⟩

/-- Jumps that lead to `$0000` or would lead below it are the ones that are printed with it. -/
theorem toNat_jumpTarget_eq_zero_iff {address : UInt32} {distance : Int8} :
    (jumpTarget (addressAfter address 2) distance).toNat = 0 ↔
      rawTarget (UInt32.ofNat (min (address.toNat + 2) 0xffffffff)) distance ≤ 0 := by
  have htarget := toNat_jumpTarget (addressAfter address 2) distance
  rw [← addressAfter]
  omega

namespace Decodes

variable {address : UInt32} {bytes others : List UInt8} {instruction other : Instruction}
  {opcode : UInt8}

/-- A jump to `$0000` can be read as far as its distance goes. -/
theorem jumpsToStart_readable {window : Window} (h : Decodes address window.readable instruction)
    (hjump : JumpsToStart address opcode window.bytes) :
    JumpsToStart address opcode window.readable := by
  obtain ⟨value, rest, before, after, hbytes, hopcode, hle⟩ := hjump
  have hprefix : window.readable <+: opcode :: value :: rest := hbytes ▸ List.take_prefix _ _
  cases hreadable : window.readable with
  | nil =>
      rw [hreadable] at h
      cases h
  | cons byte readable =>
      rw [hreadable] at h hprefix
      obtain ⟨rfl, hrest⟩ := List.cons_prefix_cons.mp hprefix
      obtain ⟨value', tail, rfl, _⟩ := h.exists_jump hopcode
      obtain ⟨rfl, _⟩ := List.cons_prefix_cons.mp hrest
      exact ⟨value', tail, before, after, rfl, hopcode, hle⟩

/-- Jumps to `$0000` are printed alike. -/
theorem text_eq_of_jumpsToStart (h : Decodes address bytes instruction)
    (hother : Decodes address others other) (hjump : JumpsToStart address opcode bytes)
    (hotherJump : JumpsToStart address opcode others) : instruction.text = other.text := by
  obtain ⟨value, rest, before, after, rfl, hopcode, hle⟩ := hjump
  obtain ⟨value', rest', before', after', rfl, hopcode', hle'⟩ := hotherJump
  obtain ⟨rfl, _, rfl⟩ := Opcode.withOperand.inj (hopcode.symm.trans hopcode')
  rw [h.unique (jump hopcode address value rest), hother.unique (jump hopcode address value' rest')]
  simp only [toNat_jumpTarget_eq_zero_iff.mpr hle, toNat_jumpTarget_eq_zero_iff.mpr hle']

/-- An instruction that is printed like a jump to `$0000` with the same first byte is one as well. -/
theorem jumpsToStart_of_text_eq (h : Decodes address bytes instruction)
    (hother : Decodes address others other) (htext : instruction.text = other.text)
    (hhead : bytes.head? = others.head?) (hjump : JumpsToStart address opcode bytes) :
    JumpsToStart address opcode others := by
  obtain ⟨value, rest, before, after, rfl, hopcode, hle⟩ := hjump
  obtain ⟨tail, rfl⟩ := List.head?_eq_some_iff.mp (hhead.symm.trans (List.head?_cons ..))
  obtain ⟨value', rest', rfl, hjump'⟩ := hother.exists_jump hopcode
  rw [h.unique (jump hopcode address value rest), hjump'] at htext
  have htarget := Hex.literal_inj htext
  rw [toNat_jumpTarget_eq_zero_iff.mpr hle, eq_comm, toNat_jumpTarget_eq_zero_iff] at htarget
  exact ⟨value', rest', before, after, rfl, hopcode, htarget⟩

/-- Instructions that are printed alike are made of the same bytes, or they are jumps to `$0000`. -/
theorem take_eq_or_jumpsToStart (h : Decodes address bytes instruction)
    (hother : Decodes address others other) (htext : instruction.text = other.text) :
    instruction.length = other.length ∧
      (bytes.take instruction.length = others.take other.length ∨
        ∃ opcode, JumpsToStart address opcode bytes ∧ JumpsToStart address opcode others) := by
  obtain ⟨told, htells, hlength, htold⟩ := h.tells
  obtain ⟨otherTold, hotherTells, hotherLength, hotherTold⟩ := hother.tells
  obtain rfl := htells.bytes_eq hotherTells htext
  refine ⟨hlength.symm.trans hotherLength, ?_⟩
  -- The text tells the first byte in any case, and with it the opcode of a jump.
  have hpos : 1 ≤ told.length := hlength ▸ h.length_pos
  have hhead : told.head? = bytes.head? := htold.elim (head?_eq_of_isPrefix · hpos) (·.2.2)
  have hotherHead : told.head? = others.head? :=
    hotherTold.elim (head?_eq_of_isPrefix · hpos) (·.2.2)
  rcases htold with hinitial | ⟨hheld, _⟩
  · rcases hotherTold with hotherInitial | ⟨hheld, _⟩
    · refine .inl ?_
      rw [← hlength, ← hotherLength, ← List.prefix_iff_eq_take.mp hinitial,
        ← List.prefix_iff_eq_take.mp hotherInitial]
    · obtain ⟨opcode, hjump⟩ := hheld.jumpsToStart
      exact .inr ⟨opcode, hother.jumpsToStart_of_text_eq h htext.symm
        (hotherHead.symm.trans hhead) hjump, hjump⟩
  · obtain ⟨opcode, hjump⟩ := hheld.jumpsToStart
    exact .inr ⟨opcode, hjump, h.jumpsToStart_of_text_eq hother htext
      (hhead.symm.trans hotherHead) hjump⟩

end Decodes

/-- **Instructions and their texts.** Two instructions that are decoded at the same offset have the same
text exactly if they take the same bytes, or if both start with the same opcode of a relative jump and
both targets, not held at `$0000`, lie at or below it. In any case they have the same length. -/
theorem text_eq_iff_consumed_eq (address : UInt32) (bytes others : List UInt8)
    (remaining otherRemaining : Nat) (instruction other : Instruction)
    (h : decode ⟨bytes, remaining, address⟩ = .ok instruction)
    (hother : decode ⟨others, otherRemaining, address⟩ = .ok other) :
    (instruction.text = other.text ↔
      bytes.take instruction.length = others.take other.length ∨
        ∃ opcode, JumpsToStart address opcode bytes ∧ JumpsToStart address opcode others) ∧
      (instruction.text = other.text → instruction.length = other.length) := by
  have hdecodes := decode_eq_ok h
  have hotherDecodes := decode_eq_ok hother
  have htake := hdecodes.take_readable
  have hotherTake := hotherDecodes.take_readable
  refine ⟨⟨fun htext => ?_, ?_⟩, fun htext => ?_⟩
  · rw [← htake, ← hotherTake]
    refine (hdecodes.take_eq_or_jumpsToStart hotherDecodes htext).2.imp_right ?_
    rintro ⟨opcode, hjump, hotherJump⟩
    exact ⟨opcode, hjump.of_readable, hotherJump.of_readable⟩
  · rintro (hsame | ⟨opcode, hjump, hotherJump⟩)
    · rw [← htake, ← hotherTake] at hsame
      rw [hdecodes.eq_of_take hotherDecodes hsame]
    · exact hdecodes.text_eq_of_jumpsToStart hotherDecodes (hdecodes.jumpsToStart_readable hjump)
        (hotherDecodes.jumpsToStart_readable hotherJump)
  · exact (hdecodes.take_eq_or_jumpsToStart hotherDecodes htext).1

/-- Two jumps from `$0000` are printed alike: one to `$0000`, and one that would lead below it. -/
theorem text_eq_of_jumps_to_start :
    decode ⟨[0x18, 0xfe], 2, 0⟩ = .ok ⟨"jr $0000", 2⟩ ∧
      decode ⟨[0x18, 0xfa], 2, 0⟩ = .ok ⟨"jr $0000", 2⟩ ∧
      ∃ opcode, JumpsToStart 0 opcode [0x18, 0xfe] ∧ JumpsToStart 0 opcode [0x18, 0xfa] := by
  have hstart : decode ⟨[0x18, 0xfe], 2, 0⟩ = .ok ⟨"jr $0000", 2⟩ := by decide
  have hbelow : decode ⟨[0x18, 0xfa], 2, 0⟩ = .ok ⟨"jr $0000", 2⟩ := by decide
  have hiff := (text_eq_iff_consumed_eq 0 _ _ 2 2 _ _ hstart hbelow).1
  exact ⟨hstart, hbelow, (hiff.mp rfl).resolve_left (by decide)⟩

end RomListing
