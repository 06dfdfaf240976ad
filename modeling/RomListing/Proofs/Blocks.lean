import RomListing.Proofs.Driver

/-! The blocks of a listing. Each bank adds a block of lines of its own, and the block is made from the
bank's number, its bytes and the question whether the image has a header. What stands elsewhere in the
image, and how long the image is, does not show in it. -/

namespace RomListing

/-! ### One bank -/

/-- The visits of a bank, by its bytes alone. A bank that counts is whole or ends the image, so the end
of its bytes already tells whether there is room for the header area. -/
def bankVisits (decoder : Decoder) (bank : Nat) (hasHeader : Bool) (bytes : List UInt8) : List Visit :=
  let start := bank * bankSize
  let stop := start + bytes.length
  let isHeader := fun address : UInt32 =>
    hasHeader && decide (Header.stop ≤ stop) &&
      (Span.mk Header.logo Header.stop).contains address.toNat
  Walk.visits ⟨isHeader, decoder, stop⟩ 0 start bytes

/-- The lines of a bank, by its bytes alone. -/
def bankBlock (decoder : Decoder) (width bank : Nat) (hasHeader : Bool) (bytes : List UInt8) :
    List String :=
  Line.sectionMarker bank :: (bankVisits decoder bank hasHeader bytes).map (Visit.line width)

theorem toList_extract_congr {bytes others : Array UInt8} {start stop : Nat}
    (h : ∀ i, start ≤ i → i < stop → others[i]? = bytes[i]?) :
    (others.extract start stop).toList = (bytes.extract start stop).toList := by
  apply List.ext_getElem?
  intro i
  simp only [Array.toList_extract, List.extract_eq_take_drop, List.getElem?_take, List.getElem?_drop,
    Array.getElem?_toList]
  split
  · exact h _ (by omega) (by omega)
  · rfl

namespace Rom

variable {rom other : Rom} {bank : Nat}

theorem bankRange_start_of_lt (h : bank < rom.bankCount) :
    (rom.bankRange bank).start = bank * bankSize := by
  rw [bankRange_start]
  simp only [bankCount, bankSize] at h ⊢
  omega

theorem length_bankBytes : (rom.bankBytes bank).length = (rom.bankRange bank).size := by
  have hstop : (rom.bankRange bank).stop ≤ rom.bytes.size := rom.bankRange_stop_le_size bank
  rw [bankBytes, Array.length_toList, Array.size_extract, Nat.min_eq_left hstop, Span.size]

theorem bankRange_stop_of_lt (h : bank < rom.bankCount) :
    (rom.bankRange bank).stop = bank * bankSize + (rom.bankBytes bank).length := by
  have hle := rom.bankRange_start_le_stop bank
  rw [length_bankBytes, Span.size, ← bankRange_start_of_lt h]
  omega

/-- The end of a bank tells as well as the size of the image whether there is room for a header. -/
theorem header_fits_iff : Header.stop ≤ (rom.bankRange bank).stop ↔ Header.stop ≤ rom.size := by
  rw [bankRange_stop]
  simp only [bankSize, Header.stop]
  omega

theorem isHeaderByte_eq (address : UInt32) : rom.isHeaderByte address =
    (rom.hasHeader && decide (Header.stop ≤ rom.size) &&
      (Span.mk Header.logo Header.stop).contains address.toNat) := by
  unfold isHeaderByte headerRange
  cases rom.hasHeader <;> by_cases hsize : Header.stop ≤ rom.size <;> simp [hsize]

/-- What a walk finds in a bank is found from the bank's bytes. -/
theorem visits_eq_bankVisits (decoder : Decoder) (h : bank < rom.bankCount) :
    rom.visits decoder bank = bankVisits decoder bank rom.hasHeader (rom.bankBytes bank) := by
  have hheader : rom.isHeaderByte = fun address =>
      rom.hasHeader && decide (Header.stop ≤ (rom.bankRange bank).stop) &&
        (Span.mk Header.logo Header.stop).contains address.toNat := by
    funext address
    rw [isHeaderByte_eq, decide_eq_decide.mpr header_fits_iff]
  rw [visits, bankVisits, hheader, bankRange_start_of_lt h, bankRange_stop_of_lt h]

theorem bankLines_eq_bankBlock (decoder : Decoder) (width : Nat) (h : bank < rom.bankCount) :
    rom.bankLines decoder width bank =
      bankBlock decoder width bank rom.hasHeader (rom.bankBytes bank) := by
  rw [bankLines, bankBlock, visits_eq_bankVisits decoder h]

/-- A bank is the same in two images where they agree on its offsets. -/
theorem bankBytes_congr (hrange : other.bankRange bank = rom.bankRange bank)
    (h : ∀ i, (rom.bankRange bank).start ≤ i → i < (rom.bankRange bank).stop →
      other.bytes[i]? = rom.bytes[i]?) : other.bankBytes bank = rom.bankBytes bank := by
  rw [bankBytes, bankBytes, hrange, toList_extract_congr h]

/-- Banks do not overlap. -/
theorem not_mem_bankRange {i next : Nat} (hbank : bank ≠ next)
    (hstart : (rom.bankRange bank).start ≤ i) (hstop : i < (rom.bankRange bank).stop) :
    i < (rom.bankRange next).start ∨ (rom.bankRange next).stop ≤ i := by
  rw [bankRange_start] at hstart ⊢
  rw [bankRange_stop] at hstop ⊢
  simp only [bankSize] at hstart hstop ⊢
  omega

end Rom

/-! ### Images with the same banks -/

variable {rom other : Rom} {decoder : Decoder} {options : Options} {width : Nat}

/-- Images with the same visits have the same listing, or fail for the same reason. -/
theorem disassembleWith_congr (hcount : other.bankCount = rom.bankCount)
    (hvisits : ∀ bank < rom.bankCount, other.visits decoder bank = rom.visits decoder bank) :
    disassembleWith decoder options other = disassembleWith decoder options rom := by
  have hall : other.allVisits decoder = rom.allVisits decoder := by
    rw [Rom.allVisits, Rom.allVisits, hcount]
    exact List.flatMap_congr fun bank hmem => hvisits bank (List.mem_range.mp hmem)
  have hlines : other.lines decoder options.width = rom.lines decoder options.width := by
    rw [Rom.lines, Rom.lines, hcount]
    apply List.flatMap_congr
    intro bank hmem
    rw [Rom.bankLines, Rom.bankLines, hvisits bank (List.mem_range.mp hmem)]
  rw [disassembleWith, disassembleWith, Listing.text, Listing.text, Rom.findSome?_failure?_events,
    Rom.findSome?_failure?_events, Rom.filterMap_line?_events, Rom.filterMap_line?_events, hall,
    hlines]

namespace Rom

/-- An image with more bytes behind its last one. -/
def append (rom : Rom) (more : Array UInt8) : Rom := { rom with bytes := rom.bytes ++ more }

variable {more : Array UInt8} {bank count : Nat}

theorem size_append : (rom.append more).size = rom.size + more.size := Array.size_append

theorem bankBytes_append (h : (bank + 1) * bankSize ≤ rom.size) :
    (rom.append more).bankBytes bank = rom.bankBytes bank := by
  have hrange : (rom.append more).bankRange bank = rom.bankRange bank := by
    simp only [bankRange, size_append, bankSize] at h ⊢
    congr 1 <;> omega
  refine bankBytes_congr hrange fun i _ hstop => ?_
  exact Array.getElem?_append_left (Nat.lt_of_lt_of_le hstop (rom.bankRange_stop_le_size bank))

/-- A bank put behind whole banks is the next bank. -/
theorem bankBytes_append_last (hsize : rom.size = count * bankSize) (hmore : more.size = bankSize) :
    (rom.append more).bankBytes count = more.toList := by
  have hsmaller : rom.bytes.toList.length = count * bankSize := hsize
  have hlarger : (rom.append more).size = count * bankSize + bankSize := by
    rw [size_append, hsize, hmore]
  have hstart : ((rom.append more).bankRange count).start = rom.bytes.toList.length := by
    rw [bankRange_start, hlarger, hsmaller, Nat.min_eq_left (Nat.le_add_right _ _)]
  have hstop : ((rom.append more).bankRange count).stop =
      rom.bytes.toList.length + more.toList.length := by
    rw [bankRange_stop, hlarger, Nat.succ_mul, Nat.min_self, hsmaller, Array.length_toList, hmore]
  rw [bankBytes, hstart, hstop, append, Array.toList_extract, Array.toList_append,
    List.extract_eq_take_drop, List.drop_left, Nat.add_sub_cancel_left, List.take_length]

theorem bankCount_of_size (hpos : 1 ≤ count) (hsize : rom.size = count * bankSize) :
    rom.bankCount = count := by
  simp only [bankCount, hsize, bankSize]
  omega

theorem bankCount_append_trailing (hpos : 1 ≤ count) (hsize : rom.size = count * bankSize)
    (hmore : more.size < bankSize) : (rom.append more).bankCount = count := by
  simp only [bankCount, size_append, hsize, bankSize] at hmore ⊢
  omega

/-- The whole banks of an image keep their visits when bytes are added. -/
theorem visits_append (hsize : rom.size = count * bankSize) (h : bank < count)
    (hcount : bank < (rom.append more).bankCount) :
    (rom.append more).visits decoder bank = rom.visits decoder bank := by
  have hwhole : (bank + 1) * bankSize ≤ rom.size := by
    rw [hsize]
    exact Nat.mul_le_mul_right bankSize h
  rw [visits_eq_bankVisits decoder hcount, bankBytes_append hwhole,
    visits_eq_bankVisits decoder (by rw [bankCount_of_size (by omega) hsize]; exact h), append]

theorem bankCount_append_bank (hsize : rom.size = count * bankSize) (hmore : more.size = bankSize) :
    (rom.append more).bankCount = count + 1 := by
  simp only [bankCount, size_append, hsize, hmore, bankSize]
  omega

/-- A bank put behind whole banks adds its block to the lines. -/
theorem lines_append (hpos : 1 ≤ count) (hsize : rom.size = count * bankSize)
    (hmore : more.size = bankSize) :
    (rom.append more).lines decoder width =
      rom.lines decoder width ++ bankBlock decoder width count rom.hasHeader more.toList := by
  have hcount := bankCount_append_bank hsize hmore
  have hlast : (rom.append more).bankLines decoder width count =
      bankBlock decoder width count rom.hasHeader more.toList := by
    rw [bankLines_eq_bankBlock decoder width (by omega), bankBytes_append_last hsize hmore, append]
  rw [lines, hcount, List.range_succ, List.flatMap_append, List.flatMap_singleton, hlast, lines,
    bankCount_of_size hpos hsize]
  congr 1
  apply List.flatMap_congr
  intro bank hmem
  have hbank := List.mem_range.mp hmem
  rw [bankLines, bankLines, visits_append hsize hbank (by omega)]

theorem mem_allVisits_append (hpos : 1 ≤ count) (hsize : rom.size = count * bankSize)
    (hmore : more.size = bankSize) {visit : Visit} (h : visit ∈ rom.allVisits decoder) :
    visit ∈ (rom.append more).allVisits decoder := by
  obtain ⟨bank, hbank, hvisit⟩ := (rom.mem_allVisits decoder).mp h
  have hcount := bankCount_append_bank hsize hmore
  rw [bankCount_of_size hpos hsize] at hbank
  refine ((rom.append more).mem_allVisits decoder).mpr ⟨bank, by omega, ?_⟩
  rwa [visits_append hsize hbank (by omega)]

end Rom

/-- **Banks are independent.** A lenient listing is made of blocks, one for each bank, that depend on its
number, its bytes and the header alone. So a change in one bank does not show in the block of another. -/
theorem listing_made_of_independent_blocks (decoder : Decoder) (width : Nat) :
    (∀ rom, disassembleWith decoder { policy := .lenient, width := width } rom ≠ .error .tooWide →
      disassembleWith decoder { policy := .lenient, width := width } rom =
        .ok ("\n".intercalate ((List.range rom.bankCount).flatMap (rom.bankLines decoder width)))) ∧
      (∀ (rom : Rom), ∀ bank < rom.bankCount, rom.bankLines decoder width bank =
        bankBlock decoder width bank rom.hasHeader (rom.bankBytes bank)) ∧
      (∀ (rom other : Rom) bank, other.hasHeader = rom.hasHeader → bank < rom.bankCount →
        bank < other.bankCount → other.bankBytes bank = rom.bankBytes bank →
        other.bankLines decoder width bank = rom.bankLines decoder width bank) ∧
      (∀ (rom other : Rom) changed, other.hasHeader = rom.hasHeader → other.size = rom.size →
        (∀ i, i < (rom.bankRange changed).start ∨ (rom.bankRange changed).stop ≤ i →
          other.bytes[i]? = rom.bytes[i]?) →
        ∀ bank < rom.bankCount, bank ≠ changed →
          other.bankLines decoder width bank = rom.bankLines decoder width bank) ∧
      (∀ rom count trailing, 1 ≤ count → rom.size = count * bankSize → trailing.size < bankSize →
        disassembleWith decoder { policy := .lenient, width := width } (rom.append trailing) =
          disassembleWith decoder { policy := .lenient, width := width } rom) ∧
      ∀ rom count more, 1 ≤ count → rom.size = count * bankSize → more.size = bankSize →
        disassembleWith decoder { policy := .lenient, width := width } (rom.append more) ≠
          .error .tooWide →
        ∃ listing, disassembleWith decoder { policy := .lenient, width := width } rom = .ok listing ∧
          disassembleWith decoder { policy := .lenient, width := width } (rom.append more) =
            .ok (listing ++ "\n" ++
              "\n".intercalate (bankBlock decoder width count rom.hasHeader more.toList)) := by
  have hshared : ∀ (rom other : Rom) bank, other.hasHeader = rom.hasHeader → bank < rom.bankCount →
      bank < other.bankCount → other.bankBytes bank = rom.bankBytes bank →
      other.bankLines decoder width bank = rom.bankLines decoder width bank := by
    intro rom other bank hheader hbank hother hbytes
    rw [Rom.bankLines_eq_bankBlock decoder width hother, hheader, hbytes,
      Rom.bankLines_eq_bankBlock decoder width hbank]
  refine ⟨?_, fun _ _ => Rom.bankLines_eq_bankBlock decoder width, hshared, ?_, ?_, ?_⟩
  · intro rom h
    obtain ⟨listing, hlisting⟩ := lenient_eq_ok h
    rw [hlisting, (disassembleWith_eq_ok_iff.mp hlisting).2, Rom.lines]
  · intro rom other changed hheader hsize hagree bank hbank hne
    have hcount : other.bankCount = rom.bankCount := by rw [Rom.bankCount, Rom.bankCount, hsize]
    have hrange : other.bankRange bank = rom.bankRange bank := by
      rw [Rom.bankRange, Rom.bankRange, hsize]
    refine hshared rom other bank hheader hbank (by omega) (Rom.bankBytes_congr hrange ?_)
    intro i hstart hstop
    exact hagree i (Rom.not_mem_bankRange hne hstart hstop)
  · intro rom count trailing hpos hsize htrailing
    have hcount := Rom.bankCount_of_size hpos hsize
    have hmore := Rom.bankCount_append_trailing hpos hsize htrailing
    refine disassembleWith_congr (hmore.trans hcount.symm) fun bank hbank => ?_
    exact Rom.visits_append hsize (by omega) (by omega)
  · intro rom count more hpos hsize hmore h
    obtain ⟨longer, hlonger⟩ := lenient_eq_ok h
    obtain ⟨hnone, htext⟩ := disassembleWith_eq_ok_iff.mp hlonger
    refine ⟨"\n".intercalate (rom.lines decoder width), ?_, ?_⟩
    · refine disassembleWith_eq_ok_iff.mpr ⟨fun visit hvisit => ?_, rfl⟩
      exact hnone visit (Rom.mem_allVisits_append hpos hsize hmore hvisit)
    · rw [hlonger, htext, Rom.lines_append hpos hsize hmore]
      exact congrArg Except.ok
        (String.intercalate_append_of_ne_nil (rom.lines_ne_nil decoder width) (List.cons_ne_nil _ _))

/-- A bank of `nop` with a bank of undefined bytes or some of them behind it. -/
theorem listing_of_bank_with_more :
    disassembleWith decode { policy := .lenient, width := 0 }
        ((Rom.mk (Array.replicate 0x4000 0x00) false).append (Array.replicate 0x3fff 0xd3)) =
      disassembleWith decode { policy := .lenient, width := 0 }
        ⟨Array.replicate 0x4000 0x00, false⟩ ∧
    ∃ listing, disassembleWith decode { policy := .lenient, width := 0 }
        ⟨Array.replicate 0x4000 0x00, false⟩ = .ok listing ∧
      disassembleWith decode { policy := .lenient, width := 0 }
          ((Rom.mk (Array.replicate 0x4000 0x00) false).append (Array.replicate 0x4000 0xd3)) =
        .ok (listing ++ "\n" ++
          "\n".intercalate (bankBlock decode 0 1 false (Array.replicate 0x4000 0xd3).toList)) := by
  have hsize : (Rom.mk (Array.replicate 0x4000 0x00) false).size = 1 * bankSize := by
    rw [Rom.size, Array.size_replicate, bankSize]
  obtain ⟨_, _, _, _, htrailing, hbank⟩ := listing_made_of_independent_blocks decode 0
  refine ⟨htrailing _ 1 _ (Nat.le_refl 1) hsize ?_, hbank _ 1 _ (Nat.le_refl 1) hsize ?_ ?_⟩
  · rw [Array.size_replicate]
    decide
  · rw [Array.size_replicate, bankSize]
  · exact ne_tooWide_of_width_le (Nat.zero_le _)

end RomListing
