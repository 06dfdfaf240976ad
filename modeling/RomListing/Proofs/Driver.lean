import Mathlib.Data.List.Basic
import RomListing.Proofs.RunLoop

/-! How a decoder is driven, whatever it answers. The walk asks it once at each offset it stops at, in
order, and nowhere else: a header byte is never put to it, a decoder that claims no length does not
hold up the walk, and one that claims too much does not reach into the next bank. -/

namespace RomListing

namespace Strides

variable {stride other : Nat → Nat} {stop cursor : Nat} {offsets others : List Nat}

theorem unique (h : Strides stride stop cursor offsets) (hother : Strides stride stop cursor others) :
    offsets = others := by
  induction h generalizing others with
  | done hle =>
      cases hother with
      | done _ => rfl
      | step hlt _ => omega
  | step hlt _ ih =>
      cases hother with
      | done hle => omega
      | step _ hrest => rw [ih hrest]

/-- The loop depends on the strides at the offsets it stops at, and on no others. -/
theorem congr (h : Strides stride stop cursor offsets)
    (hagree : ∀ offset ∈ offsets, other offset = stride offset) :
    Strides other stop cursor offsets := by
  induction h with
  | done hle => exact .done hle
  | step hlt _ ih =>
      refine .step hlt ?_
      rw [hagree _ List.mem_cons_self]
      exact ih fun offset hmem => hagree offset (List.mem_cons_of_mem _ hmem)

end Strides

namespace Rom

variable (rom : Rom) (decoder : Decoder) (bank : Nat)

theorem call?_visitAt (cursor : Nat) :
    (rom.visitAt decoder bank cursor).call? =
      if rom.isHeaderByte (UInt32.ofNat cursor) then none else some (rom.windowAt bank cursor) := by
  unfold visitAt Visit.call?
  split
  · rfl
  · cases decoder (rom.windowAt bank cursor) <;> rfl

/-- The offsets of a bank at which the decoder is asked: where the walk stops at no header byte. -/
def askedCursors : List Nat :=
  (rom.cursors decoder bank).filter fun cursor => !rom.isHeaderByte (UInt32.ofNat cursor)

/-- What the decoder is asked in a bank. -/
theorem filterMap_call?_visits :
    (rom.visits decoder bank).filterMap Visit.call? =
      (rom.askedCursors decoder bank).map (rom.windowAt bank) := by
  rw [visits_eq_map, List.filterMap_map, askedCursors]
  induction rom.cursors decoder bank with
  | nil => rfl
  | cons cursor cursors ih =>
      cases hheader : rom.isHeaderByte (UInt32.ofNat cursor) with
      | true =>
          rw [List.filterMap_cons_none (by simp [call?_visitAt, hheader]), ih,
            List.filter_cons_of_neg (by simp [hheader])]
      | false =>
          rw [List.filterMap_cons_some (b := rom.windowAt bank cursor)
            (by simp [call?_visitAt, hheader]), ih, List.filter_cons_of_pos (by simp [hheader]),
            List.map_cons]

theorem filterMap_call?_allVisits :
    (rom.allVisits decoder).filterMap Visit.call? =
      (List.range rom.bankCount).flatMap fun bank =>
        (rom.askedCursors decoder bank).map (rom.windowAt bank) := by
  rw [allVisits, List.filterMap_flatMap]
  simp only [filterMap_call?_visits]

/-- A decoder that answers alike at every offset where the walk stops and asks takes the same walk. -/
theorem visits_congr {other : Decoder}
    (hagree : ∀ cursor ∈ rom.askedCursors decoder bank,
      other (rom.windowAt bank cursor) = decoder (rom.windowAt bank cursor)) :
    rom.visits other bank = rom.visits decoder bank := by
  have hanswer : ∀ cursor ∈ rom.cursors decoder bank,
      rom.isHeaderByte (UInt32.ofNat cursor) = false →
        other (rom.windowAt bank cursor) = decoder (rom.windowAt bank cursor) := by
    intro cursor hmem hheader
    exact hagree cursor (List.mem_filter.mpr ⟨hmem, by simp [hheader]⟩)
  have hstride : ∀ cursor ∈ rom.cursors decoder bank,
      rom.stride other bank cursor = rom.stride decoder bank cursor := by
    intro cursor hmem
    unfold stride
    split
    · rfl
    · rename_i hheader
      rw [hanswer cursor hmem (by simpa using hheader)]
  have hvisit : ∀ cursor ∈ rom.cursors decoder bank,
      rom.visitAt other bank cursor = rom.visitAt decoder bank cursor := by
    intro cursor hmem
    unfold visitAt
    split
    · rfl
    · rename_i hheader
      rw [hanswer cursor hmem (by simpa using hheader)]
  have hcursors : rom.cursors other bank = rom.cursors decoder bank :=
    (rom.strides_cursors other bank).unique ((rom.strides_cursors decoder bank).congr hstride)
  rw [visits_eq_map, visits_eq_map, hcursors]
  exact List.map_congr_left hvisit

/-- Every bank but the first holds a byte. -/
theorem bankRange_start_lt_stop (hbank : bank + 1 < rom.bankCount) :
    (rom.bankRange (bank + 1)).start < (rom.bankRange (bank + 1)).stop := by
  rw [bankRange_start, bankRange_stop]
  simp only [bankCount, bankSize] at hbank ⊢
  omega

/-- However far the last instruction of a bank claims to reach, the next bank is read from its first
byte. -/
theorem head?_cursors (hbank : bank + 1 < rom.bankCount) :
    (rom.cursors decoder (bank + 1)).head? = some (rom.bankRange bank).stop := by
  rw [bankRange_stop_eq_start]
  exact (rom.strides_cursors decoder (bank + 1)).head?_eq (rom.bankRange_start_lt_stop bank hbank)

theorem bankLines_eq (width : Nat) :
    rom.bankLines decoder width = fun bank => Line.sectionMarker bank ::
      (rom.cursors decoder bank).map fun cursor =>
        (rom.visitAt decoder bank cursor).line width := by
  funext bank
  rw [bankLines, visits_eq_map, List.map_map]
  rfl

end Rom

/-- **A lenient run, for any decoder.** In every bank the run follows the loop over offsets, makes one line
for the bank and one for each stop, and asks the decoder once at each stop that is no header byte. Only
these answers matter. -/
theorem lenient_run_follows_loop (rom : Rom) (decoder : Decoder) (width : Nat)
    (h : disassembleWith decoder { policy := .lenient, width := width } rom ≠ .error .tooWide) :
    disassembleWith decoder { policy := .lenient, width := width } rom =
        .ok ("\n".intercalate ((List.range rom.bankCount).flatMap fun bank =>
          Line.sectionMarker bank :: (rom.cursors decoder bank).map fun cursor =>
            (rom.visitAt decoder bank cursor).line width)) ∧
      Listing.calls { policy := .lenient, width := width } (rom.events decoder) =
        ((List.range rom.bankCount).flatMap fun bank =>
          ((rom.cursors decoder bank).filter fun cursor =>
            !rom.isHeaderByte (UInt32.ofNat cursor)).map (rom.windowAt bank)) ∧
      (∀ other : Decoder,
        (∀ window ∈ Listing.calls { policy := .lenient, width := width } (rom.events decoder),
          other window = decoder window) →
        disassembleWith other { policy := .lenient, width := width } rom =
          disassembleWith decoder { policy := .lenient, width := width } rom) ∧
      disassembleLoop decoder { policy := .lenient, width := width } rom =
        (disassembleWith decoder { policy := .lenient, width := width } rom,
          Listing.log { policy := .lenient, width := width } (rom.events decoder),
          Listing.calls { policy := .lenient, width := width } (rom.events decoder)) ∧
      ∀ bank < rom.bankCount,
        Strides (rom.stride decoder bank) (rom.bankRange bank).stop (rom.bankRange bank).start
            (rom.cursors decoder bank) ∧
          (∀ cursor ∈ rom.cursors decoder bank, 1 ≤ (rom.windowAt bank cursor).remaining ∧
            (rom.windowAt bank cursor).bytes.length = (rom.windowAt bank cursor).remaining) ∧
          (rom.cursors decoder bank).length ≤ (rom.bankRange bank).size ∧
          (bank + 1 < rom.bankCount →
            (rom.cursors decoder (bank + 1)).head? = some (rom.bankRange bank).stop) := by
  obtain ⟨listing, hlisting⟩ := lenient_eq_ok h
  obtain ⟨hnone, htext⟩ := disassembleWith_eq_ok_iff.mp hlisting
  have hcalls := (calls_eq hnone).trans (rom.filterMap_call?_allVisits decoder)
  refine ⟨?_, hcalls, ?_, disassembleLoop_eq decoder _ rom, ?_⟩
  · rw [hlisting, htext, Rom.lines, Rom.bankLines_eq]
  · intro other hagree
    have hbank : ∀ bank ∈ List.range rom.bankCount,
        rom.bankEvents other bank = rom.bankEvents decoder bank := by
      intro bank hmem
      rw [Rom.bankEvents, Rom.bankEvents, rom.visits_congr decoder bank]
      intro cursor hcursor
      apply hagree
      rw [hcalls, List.mem_flatMap]
      exact ⟨bank, hmem, List.mem_map_of_mem hcursor⟩
    rw [disassembleWith, disassembleWith, Rom.events, Rom.events, List.flatMap_congr hbank]
  · intro bank _
    refine ⟨rom.strides_cursors decoder bank, ?_, ?_, rom.head?_cursors decoder bank⟩
    · intro cursor hcursor
      have := rom.bounds_of_mem_cursors decoder bank hcursor
      exact ⟨Nat.sub_pos_of_lt this.2, rom.length_bytes_windowAt bank cursor⟩
    · exact (rom.strides_cursors decoder bank).length_le

/-- An image with a header and one byte behind it. -/
def headedImage : Rom := ⟨⟨List.replicate 0x151 0x00⟩, true⟩

/-- A decoder that claims no length at first, reaches into the header area later, and in the end claims
more than the bank has left. -/
def oddDecoder : Decoder := fun window =>
  .ok ⟨"nop", if window.address = 0 then 0 else if window.address = 0x100 then 0x4e else 255⟩

/-- The header bytes that are left are shown as data, and the decoder is not asked about them. -/
theorem lenient_run_of_odd_lengths :
    disassembleWith oddDecoder { policy := .lenient, width := 0 } headedImage =
      .ok ("SECTION \"rom0\", ROM0\nnop;$0000\nnop;$0001\nnop;$0100\n" ++
        "db $00;$014e\ndb $00;$014f\nnop;$0150") ∧
    Listing.calls { policy := .lenient, width := 0 } (headedImage.events oddDecoder) =
      [0, 1, 0x100, 0x150].map (headedImage.windowAt 0) := by
  obtain ⟨hlisting, hcalls, _⟩ := lenient_run_follows_loop headedImage oddDecoder 0
    (ne_tooWide_of_width_le (Nat.zero_le _))
  have hbanks : List.range headedImage.bankCount = [0] := by decide +kernel
  have hcursors : headedImage.cursors oddDecoder 0 = [0, 1, 0x100, 0x14e, 0x14f, 0x150] := by
    rw [Rom.cursors, Rom.visits, Rom.bankBytes_eq]
    decide +kernel
  have hasked : [0, 1, 0x100, 0x14e, 0x14f, 0x150].filter
      (fun cursor => !headedImage.isHeaderByte (UInt32.ofNat cursor)) = [0, 1, 0x100, 0x150] := by
    decide +kernel
  rw [hbanks, List.flatMap_singleton, hcursors] at hlisting hcalls
  rw [hasked] at hcalls
  exact ⟨hlisting.trans (by decide +kernel), hcalls⟩

end RomListing
