import RomListing.Proofs.Blocks
import RomListing.Proofs.Jumps

/-! Code in a switchable bank can be moved to another one. Such a bank is always seen through the same
window, so the processor address behind a jump is the same in all of them, and an instruction reads
alike wherever its bank stands in the image. -/

namespace RomListing

/-! ### Decoding at another offset -/

theorem jumpTarget_congr {stop other : UInt32} (h : windowAddress other = windowAddress stop)
    (offset : Int8) : jumpTarget other offset = jumpTarget stop offset := by
  rw [jumpTarget, jumpTarget, rawTarget, rawTarget, h]

section Relocate

variable {address other : UInt32} {rest : List UInt8}

/-- An operand depends on the offset of its opcode through the end of a jump alone. -/
theorem Operand.text?_relocate
    (h : rest ≠ [] → windowAddress (addressAfter other 2) = windowAddress (addressAfter address 2))
    (operand : Operand) : operand.text? other rest = operand.text? address rest := by
  cases operand with
  | distance =>
      cases rest with
      | nil => rfl
      | cons value tail => rw [text?, text?, jumpTarget_congr (h (List.cons_ne_nil value tail))]
  | byte | highPage => cases rest <;> rfl
  | word | address => rcases rest with _ | ⟨low, _ | ⟨high, tail⟩⟩ <;> rfl

/-- An error of the same opcode at another offset. -/
def DecodeError.movedTo (address : UInt32) (error : DecodeError) : DecodeError :=
  { error with address := address }

theorem decodeOpcode_relocate
    (h : rest ≠ [] → windowAddress (addressAfter other 2) = windowAddress (addressAfter address 2))
    (byte : UInt8) : decodeOpcode other byte rest =
      (decodeOpcode address byte rest).mapError (DecodeError.movedTo other) := by
  unfold decodeOpcode
  cases Opcode.ofByte byte with
  | plain text => rfl
  | undefined => rfl
  | stop =>
      simp only
      split <;> rfl
  | extended => cases rest <;> rfl
  | withOperand before operand after =>
      simp only [operand.text?_relocate h]
      cases operand.text? address rest <;> rfl

/-- Bytes read alike at two offsets, if the jumps that end behind the first two of them end at the same
processor address. Errors name their offset. -/
theorem decode_relocate {bytes : List UInt8} {remaining : Nat}
    (h : 2 ≤ remaining →
      windowAddress (addressAfter other 2) = windowAddress (addressAfter address 2)) :
    decode ⟨bytes, remaining, other⟩ =
      (decode ⟨bytes, remaining, address⟩).mapError (DecodeError.movedTo other) := by
  have hreadable : (Window.mk bytes remaining other).readable =
      (Window.mk bytes remaining address).readable := rfl
  unfold decode
  rw [hreadable]
  cases hbytes : (Window.mk bytes remaining address).readable with
  | nil => rfl
  | cons byte rest =>
      refine decodeOpcode_relocate (fun hrest => h ?_) byte
      have hlength := congrArg List.length hbytes
      have hpos := List.length_pos_iff.mpr hrest
      simp only [Window.readable, List.length_take, List.length_cons] at hlength
      omega

end Relocate

/-- What is shown for an answer does not tell where the error was. -/
theorem Item.instruction_ofResult_movedTo (address : UInt32)
    (result : Except DecodeError Instruction) :
    (Item.ofResult (result.mapError (DecodeError.movedTo address))).instruction =
      (Item.ofResult result).instruction := by
  cases result <;> rfl

/-! ### Offsets of a switchable bank -/

/-- Inside the offsets from `base` on, a loop is a loop over the distances from `base`. -/
theorem Strides.relative {stride : Nat → Nat} {base stop cursor : Nat} {offsets : List Nat}
    (h : Strides stride (base + stop) (base + cursor) offsets) :
    ∃ inner, offsets = inner.map (base + ·) ∧
      Strides (fun offset => stride (base + offset)) stop cursor inner := by
  generalize hstart : base + cursor = start at h
  induction h generalizing cursor with
  | done hle => exact ⟨[], rfl, .done (by omega)⟩
  | step hlt _ ih =>
      subst hstart
      obtain ⟨inner, rfl, hinner⟩ := ih (Nat.add_assoc base cursor _).symm
      exact ⟨cursor :: inner, rfl, .step (by omega) hinner⟩

namespace Rom

/-- The bank counts, and it is not the first one, which is fixed. -/
def IsSwitchable (rom : Rom) (bank : Nat) : Prop := 1 ≤ bank ∧ bank < rom.bankCount

variable {rom : Rom} {bank j k : Nat}

theorem isHeaderByte_of_le {address : UInt32} (h : Header.stop ≤ address.toNat) :
    rom.isHeaderByte address = false := by
  rw [isHeaderByte_eq]
  simp only [Span.contains, Bool.and_eq_false_iff, decide_eq_false_iff_not]
  omega

/-- What a decoder may see from an offset of a bank on, by the bytes of the bank. -/
theorem windowAt_eq (h : bank < rom.bankCount) (offset : Nat) :
    rom.windowAt bank (bank * bankSize + offset) =
      ⟨(rom.bankBytes bank).drop offset, (rom.bankBytes bank).length - offset,
        UInt32.ofNat (bank * bankSize + offset)⟩ := by
  have hbytes : (rom.windowAt bank (bank * bankSize + offset)).bytes =
      (rom.bankBytes bank).drop offset := by
    rw [← bankRange_start_of_lt h, ← bytes_windowAt_drop, bytes_windowAt, bankBytes]
  have hremaining : (rom.bankRange bank).stop - (bank * bankSize + offset) =
      (rom.bankBytes bank).length - offset := by
    rw [bankRange_stop_of_lt h, Nat.add_sub_add_left]
  rw [← hbytes, ← hremaining, bytes_windowAt, windowAt]

namespace IsSwitchable

theorem length_bankBytes (h : rom.IsSwitchable bank) : (rom.bankBytes bank).length = bankSize := by
  obtain ⟨hpos, hcount⟩ := h
  rw [Rom.length_bankBytes, Span.size, bankRange_stop, bankRange_start]
  simp only [bankCount, bankSize] at hcount ⊢
  omega

theorem le_size (h : rom.IsSwitchable bank) : bank * bankSize + bankSize ≤ rom.size := by
  obtain ⟨hpos, hcount⟩ := h
  simp only [bankCount, bankSize] at hcount ⊢
  omega

/-- The walk through a switchable bank is a loop over the places in it. -/
theorem exists_places (h : rom.IsSwitchable bank) :
    ∃ places : List Nat, rom.cursors decode bank = places.map (bank * bankSize + ·) ∧
      Strides (fun offset => rom.stride decode bank (bank * bankSize + offset)) bankSize 0 places := by
  have hstrides := rom.strides_cursors decode bank
  rw [bankRange_stop_of_lt h.2, bankRange_start_of_lt h.2, h.length_bankBytes,
    ← Nat.add_zero (bank * bankSize), Nat.add_assoc, Nat.zero_add] at hstrides
  exact hstrides.relative

theorem isHeaderByte_eq_false (h : rom.IsSwitchable bank) (hsize : rom.size < 2 ^ 32) {offset : Nat}
    (hoffset : offset < bankSize) :
    rom.isHeaderByte (UInt32.ofNat (bank * bankSize + offset)) = false := by
  have hle := h.le_size
  have hpos := h.1
  apply isHeaderByte_of_le
  rw [UInt32.toNat_ofNat', Nat.mod_eq_of_lt (by omega)]
  simp only [bankSize, Header.stop]
  omega

/-- The processor address behind the first two bytes of an instruction. -/
theorem toNat_windowAddress (h : rom.IsSwitchable bank) (hsize : rom.size < 2 ^ 32) {offset : Nat}
    (hoffset : offset + 2 ≤ bankSize) :
    (windowAddress (addressAfter (UInt32.ofNat (bank * bankSize + offset)) 2)).toNat =
      switchableWindow.toNat + (offset + 2) := by
  have hle := h.le_size
  rw [addressAfter_ofNat (by omega), Nat.add_assoc]
  exact toNat_windowAddress_switchable h.1 (by omega) hoffset (by omega)

end IsSwitchable

/-! ### Two switchable banks with the same bytes -/

section Twins

variable (hsize : rom.size < 2 ^ 32) (hj : rom.IsSwitchable j) (hk : rom.IsSwitchable k)
  (hbytes : rom.bankBytes k = rom.bankBytes j)

include hsize hj hk hbytes

/-- The same is shown at the same place of both banks. -/
theorem instruction_visitAt_relocate {offset : Nat} (hoffset : offset < bankSize) :
    (rom.visitAt decode k (k * bankSize + offset)).instruction =
      (rom.visitAt decode j (j * bankSize + offset)).instruction := by
  have hdecode : decode (rom.windowAt k (k * bankSize + offset)) =
      (decode (rom.windowAt j (j * bankSize + offset))).mapError
        (DecodeError.movedTo (UInt32.ofNat (k * bankSize + offset))) := by
    rw [windowAt_eq hk.2, windowAt_eq hj.2, hbytes]
    apply decode_relocate
    intro hroom
    rw [hj.length_bankBytes] at hroom
    apply UInt32.toNat_inj.mp
    rw [hj.toNat_windowAddress hsize (by omega), hk.toNat_windowAddress hsize (by omega)]
  rw [Visit.instruction, Visit.instruction, item_visitAt, item_visitAt,
    hj.isHeaderByte_eq_false hsize hoffset, hk.isHeaderByte_eq_false hsize hoffset, hdecode]
  exact Item.instruction_ofResult_movedTo _ _

/-- The walk stops at the same places of both banks. -/
theorem cursors_relocate :
    ∃ places : List Nat, (∀ offset ∈ places, offset < bankSize) ∧
      rom.cursors decode j = places.map (j * bankSize + ·) ∧
      rom.cursors decode k = places.map (k * bankSize + ·) := by
  obtain ⟨places, hplaces, hstrides⟩ := hj.exists_places
  obtain ⟨others, hothers, hotherStrides⟩ := hk.exists_places
  have hbounds : ∀ offset ∈ places, offset < bankSize := fun offset hmem =>
    (hstrides.bounds offset hmem).2
  have hsame : places = others := by
    refine (hstrides.congr fun offset hmem => ?_).unique hotherStrides
    rw [← length_visitAt, ← length_visitAt,
      instruction_visitAt_relocate hsize hj hk hbytes (hbounds offset hmem)]
  exact ⟨places, hbounds, hplaces, hsame ▸ hothers⟩

end Twins

end Rom

/-- **Switchable banks are relocatable.** Two switchable banks with the same bytes are listed with the
same texts, jump targets and remarks included, at addresses that lie as far apart as the banks do. -/
theorem switchable_banks_relocate (rom : Rom) (width j k : Nat) (hsize : rom.size < 2 ^ 32)
    (hj : rom.IsSwitchable j) (hk : rom.IsSwitchable k) (hbytes : rom.bankBytes k = rom.bankBytes j)
    (hwidth : disassemble { policy := .lenient, width := width } rom ≠ .error .tooWide) :
    ∃ listing, disassemble { policy := .lenient, width := width } rom = .ok listing ∧
      listing = "\n".intercalate ((List.range rom.bankCount).flatMap fun bank =>
        Line.sectionMarker bank :: (rom.visits decode bank).map fun visit =>
          Line.render width visit.instruction.text visit.address) ∧
      (rom.visits decode k).map (·.instruction.text) =
        (rom.visits decode j).map (·.instruction.text) ∧
      (rom.visits decode k).map (fun visit => (visit.address.toNat : Int)) =
        (rom.visits decode j).map fun visit =>
          (visit.address.toNat : Int) + ((k : Int) - j) * bankSize := by
  obtain ⟨listing, hlisting⟩ := lenient_eq_ok hwidth
  obtain ⟨places, hbounds, hjplaces, hkplaces⟩ := Rom.cursors_relocate hsize hj hk hbytes
  refine ⟨listing, hlisting, (disassembleWith_eq_ok_iff.mp hlisting).2, ?_, ?_⟩
  · simp only [Rom.visits_eq_map, hjplaces, hkplaces, List.map_map]
    apply List.map_congr_left
    intro offset hmem
    exact congrArg Instruction.text
      (Rom.instruction_visitAt_relocate hsize hj hk hbytes (hbounds offset hmem))
  · have hjsize := hj.le_size
    have hksize := hk.le_size
    simp only [Rom.visits_eq_map, hjplaces, hkplaces, List.map_map]
    apply List.map_congr_left
    intro offset hmem
    have hoffset := hbounds offset hmem
    simp only [Function.comp_apply, Rom.address_visitAt, UInt32.toNat_ofNat']
    rw [Nat.mod_eq_of_lt (by omega), Nat.mod_eq_of_lt (by omega), Int.sub_mul]
    push_cast
    omega

/-- A bank that ends in a jump over the next two bytes, which lie in another bank. -/
def jumpBank : Array UInt8 := Array.replicate 0x3ffe 0x00 ++ #[0x18, 0x02]

/-- An image whose second and third bank are the same. -/
def twinBanks : Rom := ((Rom.mk (Array.replicate 0x4000 0x00) true).append jumpBank).append jumpBank

theorem switchable_banks_relocate_twinBanks :
    (twinBanks.visits decode 2).map (·.instruction.text) =
        (twinBanks.visits decode 1).map (·.instruction.text) ∧
      (twinBanks.visits decode 2).map (fun visit => (visit.address.toNat : Int)) =
        (twinBanks.visits decode 1).map fun visit => (visit.address.toNat : Int) + 0x4000 := by
  have hjump : jumpBank.size = bankSize := by
    rw [jumpBank, Array.size_append, Array.size_replicate]
    rfl
  have hfirst : (Rom.mk (Array.replicate 0x4000 0x00) true).size = 1 * bankSize :=
    Array.size_replicate
  have hsecond : ((Rom.mk (Array.replicate 0x4000 0x00) true).append jumpBank).size =
      2 * bankSize := by
    rw [Rom.size_append, hfirst, hjump, ← Nat.succ_mul]
  have hsize : twinBanks.size = 3 * bankSize := by
    rw [twinBanks, Rom.size_append, hsecond, hjump, ← Nat.succ_mul]
  have hcount : twinBanks.bankCount = 3 := Rom.bankCount_of_size (by decide) hsize
  have hbytes : twinBanks.bankBytes 2 = twinBanks.bankBytes 1 := by
    rw [twinBanks, Rom.bankBytes_append_last hsecond hjump, Rom.bankBytes_append hsecond.ge,
      Rom.bankBytes_append_last hfirst hjump]
  obtain ⟨_, _, _, htexts, haddresses⟩ := switchable_banks_relocate twinBanks 0 1 2
    (by rw [hsize]; decide) ⟨by decide, by rw [hcount]; decide⟩ ⟨by decide, by rw [hcount]; decide⟩
    hbytes (ne_tooWide_of_width_le (Nat.zero_le _))
  exact ⟨htexts, haddresses⟩

end RomListing
