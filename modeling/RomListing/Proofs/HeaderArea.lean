import RomListing.Proofs.Blocks
import RomListing.Proofs.Tiling

/-! The header area brings listings into step. Its bytes are data one by one, so however the code in
front of it is laid out, every listing has a line right behind it, and from there on two listings of
images that agree are the same. -/

namespace RomListing

namespace Strides

variable {stride : Nat → Nat} {stop cursor : Nat} {offsets : List Nat}

/-- The loop stops at every offset on its way, or it passes over the offset in one step. -/
theorem mem_or_passed (h : Strides stride stop cursor offsets) {offset : Nat}
    (hle : cursor ≤ offset) (hlt : offset < stop) :
    offset ∈ offsets ∨
      ∃ start ∈ offsets, start < offset ∧ offset < start + max (stride start) 1 := by
  induction h with
  | done hstop => omega
  | @step cursor rest _ _ ih =>
      by_cases hreached : cursor + max (stride cursor) 1 ≤ offset
      · rcases ih hreached with hmem | ⟨start, hmem, hpassed⟩
        · exact .inl (List.mem_cons_of_mem _ hmem)
        · exact .inr ⟨start, List.mem_cons_of_mem _ hmem, hpassed⟩
      · by_cases heq : offset = cursor
        · exact .inl (heq ▸ List.mem_cons_self)
        · exact .inr ⟨cursor, List.mem_cons_self, by omega, by omega⟩

/-- From an offset at which it stops the loop goes on as if it had started there. -/
theorem exists_append_of_mem (h : Strides stride stop cursor offsets) {offset : Nat}
    (hmem : offset ∈ offsets) :
    ∃ before after, offsets = before ++ after ∧ (∀ earlier ∈ before, earlier < offset) ∧
      Strides stride stop offset after := by
  induction h with
  | done _ => exact absurd hmem List.not_mem_nil
  | @step cursor rest hlt hrest ih =>
      by_cases heq : offset = cursor
      · subst heq
        exact ⟨[], offset :: rest, rfl, fun _ hnil => absurd hnil List.not_mem_nil, .step hlt hrest⟩
      · have hlater : offset ∈ rest := (List.mem_cons.mp hmem).resolve_left heq
        obtain ⟨before, after, rfl, hbefore, hafter⟩ := ih hlater
        have hfirst := (hrest.bounds offset hlater).1
        refine ⟨cursor :: before, after, rfl, ?_, hafter⟩
        intro earlier hearlier
        rcases List.mem_cons.mp hearlier with rfl | hinner
        · omega
        · exact hbefore earlier hinner

end Strides

/-! ### The header area of an image -/

namespace Rom

/-- Where the walk moves on by more than a byte there is an instruction. -/
theorem exists_code_of_one_lt_stride {rom : Rom} {decoder : Decoder} {bank cursor : Nat}
    (h : 1 < rom.stride decoder bank cursor) :
    ∃ instruction, (rom.visitAt decoder bank cursor).item = .code instruction ∧
      instruction.length = rom.stride decoder bank cursor := by
  unfold stride at h ⊢
  rw [item_visitAt]
  split at h
  · omega
  · rename_i hheader
    rw [if_neg hheader, if_neg hheader]
    cases hresult : decoder (rom.windowAt bank cursor) with
    | ok instruction => exact ⟨instruction, rfl, rfl⟩
    | error error =>
        rw [hresult] at h
        exact absurd h (Nat.lt_irrefl 1)

/-- The image has a header area, and its offsets fit into 32 bits. -/
structure HasHeaderArea (rom : Rom) : Prop where
  hasHeader : rom.hasHeader = true
  stop_le_size : Header.stop ≤ rom.size
  size_lt : rom.size < 2 ^ 32

namespace HasHeaderArea

variable {rom : Rom}

theorem isHeaderByte_iff (h : rom.HasHeaderArea) {offset : Nat} (hoffset : offset < rom.size) :
    rom.isHeaderByte (UInt32.ofNat offset) = true ↔ Header.logo ≤ offset ∧ offset < Header.stop := by
  have hsize := h.size_lt
  rw [isHeaderByte_eq, h.hasHeader, decide_eq_true h.stop_le_size, UInt32.toNat_ofNat',
    Nat.mod_eq_of_lt (by omega)]
  simp [Span.contains]

theorem stop_le_bankRange (h : rom.HasHeaderArea) : Header.stop ≤ (rom.bankRange 0).stop :=
  header_fits_iff.mpr h.stop_le_size

theorem stride_of_mem_area (h : rom.HasHeaderArea) {offset : Nat} (hlogo : Header.logo ≤ offset)
    (hstop : offset < Header.stop) : rom.stride decode 0 offset = 1 := by
  have hsize := h.stop_le_size
  rw [stride, if_pos ((h.isHeaderByte_iff (by omega)).mpr ⟨hlogo, hstop⟩)]

/-- An offset of the area, or the one right behind it, is passed over only by an instruction that starts
in front of the area. -/
theorem mem_cursors_or_passed (h : rom.HasHeaderArea) {offset : Nat} (hlogo : Header.logo ≤ offset)
    (hle : offset ≤ Header.stop) (hlt : offset < (rom.bankRange 0).stop) :
    offset ∈ rom.cursors decode 0 ∨
      ∃ start ∈ rom.cursors decode 0, start < Header.logo ∧ start < offset ∧
        offset < start + rom.stride decode 0 start ∧ rom.stride decode 0 start ≤ 3 := by
  have hfirst : (rom.bankRange 0).start ≤ offset := by
    rw [bankRange_start]
    omega
  rcases (rom.strides_cursors decode 0).mem_or_passed hfirst hlt with
    hmem | ⟨start, hmem, hstart, hpassed⟩
  · exact .inl hmem
  · obtain ⟨hpos, hthree, _⟩ := rom.stride_decode 0 (Nat.lt_trans hstart hlt)
    rw [Nat.max_eq_left hpos] at hpassed
    by_cases hinside : Header.logo ≤ start
    · rw [h.stride_of_mem_area hinside (by omega)] at hpassed
      omega
    · exact .inr ⟨start, hmem, by omega, hstart, hpassed, hthree⟩

/-- Two bytes into the area the walk is in step: it stops at every offset up to the area's end. -/
theorem mem_cursors (h : rom.HasHeaderArea) {offset : Nat} (hlogo : Header.logo + 2 ≤ offset)
    (hle : offset ≤ Header.stop) (hlt : offset < (rom.bankRange 0).stop) :
    offset ∈ rom.cursors decode 0 := by
  rcases h.mem_cursors_or_passed (by omega) hle hlt with hmem | ⟨start, _, hbefore, _, hpassed, hthree⟩
  · exact hmem
  · omega

/-- The first two bytes of the area are stops of the walk or operands of an instruction right in front of
the area. -/
theorem mem_cursors_or_operand (h : rom.HasHeaderArea) {offset : Nat}
    (hoffset : offset = 0x104 ∨ offset = 0x105) :
    offset ∈ rom.cursors decode 0 ∨ ∃ visit ∈ rom.visits decode 0, ∃ instruction,
      visit.item = .code instruction ∧ (visit.cursor = 0x102 ∨ visit.cursor = 0x103) ∧
      visit.cursor < offset ∧ offset < visit.cursor + instruction.length := by
  have hbank : 0x150 ≤ (rom.bankRange 0).stop := h.stop_le_bankRange
  have hlogo : Header.logo = 0x104 := rfl
  have hstop : Header.stop = 0x150 := rfl
  have hin : Header.logo ≤ offset ∧ offset ≤ Header.stop := by omega
  rcases h.mem_cursors_or_passed hin.1 hin.2 (by omega) with
    hmem | ⟨start, hstart, hfront, hbefore, hpassed, hthree⟩
  · exact .inl hmem
  · have hlong : 1 < rom.stride decode 0 start := by omega
    obtain ⟨instruction, hitem, hlength⟩ := exists_code_of_one_lt_stride hlong
    refine .inr ⟨rom.visitAt decode 0 start, ?_, instruction, hitem, ?_, hbefore, ?_⟩
    · rw [visits_eq_map]
      exact List.mem_map_of_mem hstart
    · show start = 0x102 ∨ start = 0x103
      omega
    · show offset < start + instruction.length
      omega

/-- Behind the area the walk goes on, if there is anything left. -/
theorem stop_mem_cursors (h : rom.HasHeaderArea) (hlarger : Header.stop < rom.size) :
    Header.stop ∈ rom.cursors decode 0 := by
  refine h.mem_cursors (by decide) (Nat.le_refl _) ?_
  rw [bankRange_stop]
  simp only [bankSize, Header.stop] at hlarger ⊢
  omega

/-- What stands in the area is shown as data. -/
theorem text_of_mem_visits (h : rom.HasHeaderArea) {bank : Nat} {visit : Visit}
    (hvisit : visit ∈ rom.visits decode bank) (hlogo : Header.logo ≤ visit.cursor)
    (hstop : visit.cursor < Header.stop) :
    ∃ byte, rom.bytes[visit.cursor]? = some byte ∧
      visit.instruction.text = "db " ++ Hex.literal 2 byte.toNat := by
  have hsize : visit.cursor < rom.bytes.size := Nat.lt_of_lt_of_le hstop h.stop_le_size
  have hbyte := (h.isHeaderByte_iff hsize).mpr ⟨hlogo, hstop⟩
  have hitem : visit.item = .header (rom.bytes.getD visit.cursor 0) := by
    have hfound := congrArg Visit.item (eq_visitAt_of_mem_visits hvisit)
    rwa [item_visitAt, if_pos hbyte] at hfound
  refine ⟨rom.bytes.getD visit.cursor 0, ?_, ?_⟩
  · rw [Array.getD_eq_getD_getElem?, Array.getElem?_eq_getElem hsize]
    rfl
  · rw [Visit.instruction, hitem]
    simp [Item.instruction, Instruction.data]

end HasHeaderArea

end Rom

/-! ### Lines by their address -/

section Lines

open Reassembly

variable {rom : Rom} {options : Options} {listing : String}

/-- The lines with an address are those of the visits at the offset. -/
theorem linesAt_disassemble (hsize : rom.size ≤ 2 ^ 32) (h : disassemble options rom = .ok listing)
    (address : Nat) : linesAt address listing =
      ((rom.allVisits decode).filter (·.cursor = address)).map fun visit =>
        (visit.line options.width).toList := by
  rw [linesAt, codeLines_disassemble h, List.filter_map]
  congr 1
  apply List.filter_congr
  intro visit hvisit
  rw [Function.comp_apply, Visit.line, Line.lineAddress?_render,
    Rom.address_of_mem_allVisits hsize hvisit]
  simp

/-- No address is shown twice. -/
theorem length_linesAt (hsize : rom.size ≤ 2 ^ 32) (h : disassemble options rom = .ok listing)
    (address : Nat) : (linesAt address listing).length =
      if address ∈ (rom.allVisits decode).map Visit.cursor then 1 else 0 := by
  have hnodup : ((rom.allVisits decode).map Visit.cursor).Nodup :=
    rom.tiles_allVisits.pairwise_lt.imp Nat.ne_of_lt
  rw [← hnodup.count, linesAt_disassemble hsize h, List.length_map, ← List.countP_eq_length_filter,
    List.count, List.countP_map]
  rfl

theorem mem_map_cursor_allVisits {address : Nat} (h : address ∈ rom.cursors decode 0) :
    address ∈ (rom.allVisits decode).map Visit.cursor := by
  obtain ⟨visit, hvisit, rfl⟩ := List.mem_map.mp h
  exact List.mem_map_of_mem ((rom.mem_allVisits decode).mpr ⟨0, rom.bankCount_pos, hvisit⟩)

/-- The lines from an address on start where a line with the address follows lines without it. -/
theorem linesFrom_disassemble (h : disassemble options rom = .ok listing) {address : Nat}
    {before after : List String} {line : String}
    (hlines : rom.lines decode options.width = before ++ line :: after)
    (hbefore : ∀ other ∈ before, lineAddress? other.toList ≠ some address)
    (hline : lineAddress? line.toList = some address) :
    linesFrom address listing = (line :: after).map String.toList := by
  rw [linesFrom, splitOn_disassemble h, hlines, List.map_append, List.dropWhile_append_of_pos,
    List.map_cons, List.dropWhile_cons_of_neg (by simp [hline])]
  intro chars hchars
  obtain ⟨other, hother, rfl⟩ := List.mem_map.mp hchars
  simp [hbefore other hother]

end Lines

/-! ### Behind the header area -/

namespace Rom

/-- Two images are alike behind the header area. -/
structure AgreeBehindHeader (rom other : Rom) : Prop where
  hasHeader : other.hasHeader = rom.hasHeader
  size : other.size = rom.size
  bytes : ∀ i, Header.stop ≤ i → other.bytes[i]? = rom.bytes[i]?

namespace AgreeBehindHeader

variable {rom other : Rom}

theorem bankCount (h : rom.AgreeBehindHeader other) : other.bankCount = rom.bankCount := by
  rw [Rom.bankCount, Rom.bankCount, h.size]

theorem bankRange (h : rom.AgreeBehindHeader other) (bank : Nat) :
    other.bankRange bank = rom.bankRange bank := by
  rw [Rom.bankRange, Rom.bankRange, h.size]

theorem windowAt (h : rom.AgreeBehindHeader other) {bank cursor : Nat} (hcursor : Header.stop ≤ cursor) :
    other.windowAt bank cursor = rom.windowAt bank cursor := by
  have hbytes : (other.bytes.extract cursor (rom.bankRange bank).stop).toList =
      (rom.bytes.extract cursor (rom.bankRange bank).stop).toList :=
    toList_extract_congr fun i hstart _ => h.bytes i (by omega)
  rw [Rom.windowAt, Rom.windowAt, h.bankRange, hbytes]

theorem visitAt (h : rom.AgreeBehindHeader other) {bank cursor : Nat} (hcursor : Header.stop ≤ cursor) :
    other.visitAt decode bank cursor = rom.visitAt decode bank cursor := by
  have hheader : other.isHeaderByte = rom.isHeaderByte := by
    funext address
    rw [isHeaderByte_eq, isHeaderByte_eq, h.hasHeader, h.size]
  rw [Rom.visitAt, Rom.visitAt, hheader, h.windowAt hcursor, Array.getD_eq_getD_getElem?,
    h.bytes cursor hcursor, ← Array.getD_eq_getD_getElem?]

/-- All banks but the first are the same. -/
theorem bankLines (h : rom.AgreeBehindHeader other) (width : Nat) {bank : Nat}
    (hbank : bank + 1 < rom.bankCount) :
    other.bankLines decode width (bank + 1) = rom.bankLines decode width (bank + 1) := by
  have hother : bank + 1 < other.bankCount := by
    rw [h.bankCount]
    exact hbank
  rw [bankLines_eq_bankBlock decode width hbank, bankLines_eq_bankBlock decode width hother,
    h.hasHeader, bankBytes_congr (h.bankRange _)]
  intro i hstart _
  rw [bankRange_start_of_lt hbank] at hstart
  apply h.bytes
  simp only [bankSize, Header.stop] at hstart ⊢
  omega

end AgreeBehindHeader

/-- The lines of the banks behind the first one. -/
def laterLines (rom : Rom) (width : Nat) : List String :=
  (List.range (rom.bankCount - 1)).flatMap fun bank => rom.bankLines decode width (bank + 1)

theorem lines_eq_append (rom : Rom) (width : Nat) :
    rom.lines decode width = rom.bankLines decode width 0 ++ rom.laterLines width := by
  obtain ⟨later, hlater⟩ := Nat.exists_eq_succ_of_ne_zero (Nat.ne_of_gt rom.bankCount_pos)
  rw [lines, laterLines, hlater, List.range_succ_eq_map, List.flatMap_cons, List.flatMap_map]
  rfl

open Reassembly in
/-- The line of a visit shows the visit's offset. -/
theorem lineAddress?_visitAt {rom : Rom} {cursor : Nat} (bank width : Nat) (h : cursor < rom.size)
    (hsize : rom.size < 2 ^ 32) :
    lineAddress? ((rom.visitAt decode bank cursor).line width).toList = some cursor := by
  rw [Visit.line, Line.lineAddress?_render, address_visitAt, UInt32.toNat_ofNat',
    Nat.mod_eq_of_lt (by omega)]

open Reassembly in
/-- What a listing shows from the end of the header area on. -/
theorem linesFrom_headerStop {rom : Rom} {options : Options} {listing : String}
    (harea : rom.HasHeaderArea) (hlarger : Header.stop < rom.size)
    (h : disassemble options rom = .ok listing) :
    ∃ after, Strides (rom.stride decode 0) (rom.bankRange 0).stop Header.stop after ∧
      linesFrom Header.stop listing =
        (after.map (fun cursor => (rom.visitAt decode 0 cursor).line options.width) ++
          rom.laterLines options.width).map String.toList := by
  have hsize := harea.size_lt
  have hmem := harea.stop_mem_cursors hlarger
  have hlt := (rom.bounds_of_mem_cursors decode 0 hmem).2
  obtain ⟨before, after, hcursors, hbefore, hafter⟩ :=
    (rom.strides_cursors decode 0).exists_append_of_mem hmem
  refine ⟨after, hafter, ?_⟩
  cases hafter with
  | done hstop => omega
  | @step _ rest _ _ =>
      have hlines : rom.lines decode options.width =
          (Line.sectionMarker 0 ::
            before.map fun cursor => (rom.visitAt decode 0 cursor).line options.width) ++
          (rom.visitAt decode 0 Header.stop).line options.width ::
            (rest.map (fun cursor => (rom.visitAt decode 0 cursor).line options.width) ++
              rom.laterLines options.width) := by
        rw [lines_eq_append, bankLines, visits_eq_map, hcursors]
        simp [Function.comp_def]
      refine linesFrom_disassemble h hlines ?_ (lineAddress?_visitAt 0 _ hlarger hsize)
      intro other hother
      rcases List.mem_cons.mp hother with rfl | hvisited
      · rw [lineAddress?, Line.cutComment?_sectionMarker]
        simp
      · obtain ⟨cursor, hcursor, rfl⟩ := List.mem_map.mp hvisited
        have hearlier := hbefore cursor hcursor
        rw [lineAddress?_visitAt 0 _ (by omega) hsize]
        exact fun heq => absurd (Option.some_inj.mp heq) (Nat.ne_of_lt hearlier)

end Rom

/-- Listings of images that agree behind the header area are the same from there on. -/
theorem linesFrom_eq_of_agreeBehindHeader {rom other : Rom} {options : Options}
    {listing otherListing : String} (harea : rom.HasHeaderArea) (hlarger : Header.stop < rom.size)
    (hagree : rom.AgreeBehindHeader other) (h : disassemble options rom = .ok listing)
    (hother : disassemble options other = .ok otherListing) :
    Reassembly.linesFrom Header.stop otherListing = Reassembly.linesFrom Header.stop listing := by
  have hotherArea : other.HasHeaderArea := by
    refine ⟨hagree.hasHeader.trans harea.hasHeader, ?_, ?_⟩
    · rw [hagree.size]
      exact harea.stop_le_size
    · rw [hagree.size]
      exact harea.size_lt
  obtain ⟨after, hafter, hlines⟩ := Rom.linesFrom_headerStop harea hlarger h
  obtain ⟨others, hothers, hotherLines⟩ :=
    Rom.linesFrom_headerStop hotherArea (by rw [hagree.size]; exact hlarger) hother
  have hvisit : ∀ cursor ∈ after, other.visitAt decode 0 cursor = rom.visitAt decode 0 cursor :=
    fun cursor hmem => hagree.visitAt (hafter.bounds cursor hmem).1
  have hstride : ∀ cursor ∈ after, other.stride decode 0 cursor = rom.stride decode 0 cursor := by
    intro cursor hmem
    rw [← Rom.length_visitAt, ← Rom.length_visitAt, hvisit cursor hmem]
  have hsame : others = after := by
    refine Strides.unique ?_ (hafter.congr hstride)
    rwa [← hagree.bankRange]
  have hlater : other.laterLines options.width = rom.laterLines options.width := by
    rw [Rom.laterLines, Rom.laterLines, hagree.bankCount]
    apply List.flatMap_congr
    intro bank hmem
    have hbank := List.mem_range.mp hmem
    exact hagree.bankLines options.width (by omega)
  rw [hlines, hotherLines, hsame, hlater]
  congr 2
  apply List.map_congr_left
  intro cursor hmem
  rw [hvisit cursor hmem]

open Reassembly

/-- **The header area is a barrier.** Its lines show their bytes as data, only the first two addresses may
miss theirs, and the line behind it is always there, so from it on images that agree are listed alike. -/
theorem header_area_resynchronises (rom : Rom) (options : Options) (listing : String)
    (hheader : rom.hasHeader = true) (hstop : 0x150 ≤ rom.size) (hsize : rom.size < 2 ^ 32)
    (h : disassemble options rom = .ok listing) :
    (∀ line ∈ codeLines listing, ∀ address, lineAddress? line = some address → 0x104 ≤ address →
      address < 0x150 → ∃ byte, rom.bytes[address]? = some byte ∧
        line = (Line.render options.width ("db " ++ Hex.literal 2 byte.toNat)
          (UInt32.ofNat address)).toList) ∧
      (∀ address, 0x106 ≤ address → address < 0x150 → (linesAt address listing).length = 1) ∧
      (∀ address, address = 0x104 ∨ address = 0x105 → (linesAt address listing).length = 1 ∨
        linesAt address listing = [] ∧ ∃ visit ∈ rom.visits decode 0, ∃ instruction,
          visit.item = .code instruction ∧ (visit.cursor = 0x102 ∨ visit.cursor = 0x103) ∧
          visit.cursor < address ∧ address < visit.cursor + instruction.length) ∧
      (0x150 < rom.size → (linesAt 0x150 listing).length = 1 ∧
        ∀ (other : Rom) otherListing, other.hasHeader = true → other.size = rom.size →
          (∀ i, 0x150 ≤ i → other.bytes[i]? = rom.bytes[i]?) →
          disassemble options other = .ok otherListing →
          linesFrom 0x150 otherListing = linesFrom 0x150 listing) := by
  have harea : rom.HasHeaderArea := ⟨hheader, hstop, hsize⟩
  have hshown : ∀ address ∈ rom.cursors decode 0, (linesAt address listing).length = 1 := by
    intro address hmem
    rw [length_linesAt hsize.le h, if_pos (mem_map_cursor_allVisits hmem)]
  refine ⟨?_, ?_, ?_, ?_⟩
  · intro line hline address haddress hlogo hlt
    rw [codeLines_disassemble h] at hline
    obtain ⟨visit, hvisit, rfl⟩ := List.mem_map.mp hline
    rw [Visit.line, Line.lineAddress?_render, Rom.address_of_mem_allVisits hsize.le hvisit,
      Option.some_inj] at haddress
    subst haddress
    obtain ⟨bank, _, hmem⟩ := (rom.mem_allVisits decode).mp hvisit
    obtain ⟨byte, hbyte, htext⟩ := harea.text_of_mem_visits hmem hlogo hlt
    exact ⟨byte, hbyte, by rw [Visit.line, htext, Rom.address_of_mem_visits hmem]⟩
  · intro address hle hlt
    exact hshown address (harea.mem_cursors hle hlt.le (hlt.trans_le harea.stop_le_bankRange))
  · intro address haddress
    rcases harea.mem_cursors_or_operand haddress with hmem | hoperand
    · exact .inl (hshown address hmem)
    · by_cases hvisited : address ∈ (rom.allVisits decode).map Visit.cursor
      · exact .inl (by rw [length_linesAt hsize.le h, if_pos hvisited])
      · refine .inr ⟨List.length_eq_zero_iff.mp ?_, hoperand⟩
        rw [length_linesAt hsize.le h, if_neg hvisited]
  · intro hlarger
    refine ⟨hshown _ (harea.stop_mem_cursors hlarger), ?_⟩
    intro other otherListing hotherHeader hotherSize hbytes hother
    exact linesFrom_eq_of_agreeBehindHeader harea hlarger
      ⟨hotherHeader.trans hheader.symm, hotherSize, hbytes⟩ h hother

/-- An image up to the end of its header area, with a load right in front of the area that takes the
area's first two bytes as its operand. -/
def loadInFront : Rom :=
  ⟨Array.replicate 0x103 0x00 ++ #[0x01] ++ Array.replicate 0x4c 0xd3, true⟩

/-- The listings of an image with the load and of one without it are the same behind the header area. -/
theorem header_area_behind_load :
    ∃ listing otherListing,
      disassemble { policy := .lenient, width := 0 } (loadInFront.append #[0x3c]) = .ok listing ∧
        disassemble { policy := .lenient, width := 0 }
          ((Rom.mk (Array.replicate 0x150 0x00) true).append #[0x3c]) = .ok otherListing ∧
        (linesAt 0x150 listing).length = 1 ∧
        linesFrom 0x150 otherListing = linesFrom 0x150 listing := by
  have hfront : loadInFront.bytes.size = 0x150 := by simp [loadInFront]
  have hsize : (loadInFront.append #[0x3c]).size = 0x151 := by
    rw [Rom.size_append, Rom.size, hfront]
    rfl
  have hblank : (Array.replicate 0x150 (0x00 : UInt8)).size = 0x150 := Array.size_replicate
  have hother : ((Rom.mk (Array.replicate 0x150 0x00) true).append #[0x3c]).size = 0x151 := by
    rw [Rom.size_append, Rom.size, hblank]
    rfl
  obtain ⟨listing, hlisting⟩ : ∃ listing, disassemble { policy := .lenient, width := 0 }
      (loadInFront.append #[0x3c]) = .ok listing :=
    lenient_eq_ok (ne_tooWide_of_width_le (Nat.zero_le _))
  obtain ⟨otherListing, hotherListing⟩ : ∃ listing, disassemble { policy := .lenient, width := 0 }
      ((Rom.mk (Array.replicate 0x150 0x00) true).append #[0x3c]) = .ok listing :=
    lenient_eq_ok (ne_tooWide_of_width_le (Nat.zero_le _))
  obtain ⟨_, _, _, hbehind⟩ := header_area_resynchronises (loadInFront.append #[0x3c]) _ listing rfl
    (by rw [hsize]; decide) (by rw [hsize]; decide) hlisting
  obtain ⟨hline, hsame⟩ := hbehind (by rw [hsize]; decide)
  refine ⟨listing, otherListing, hlisting, hotherListing, hline, ?_⟩
  refine hsame _ otherListing rfl (hother.trans hsize.symm) (fun i hi => ?_) hotherListing
  rw [Rom.append, Rom.append, Array.getElem?_append_right (hblank.le.trans hi),
    Array.getElem?_append_right (hfront.le.trans hi), hblank, hfront]

end RomListing
