import Mathlib.Tactic.Choose
import RomListing.Proofs.Tiling

/-! A lenient listing gives back the image. Every line gives back the bytes of its visit, and the visits
tile the whole banks, so the bytes of all lines are the bytes of the image, held jumps apart. -/

namespace RomListing

/-- What a decoder may read stands in the image. -/
theorem Rom.getElem?_readable_windowAt (rom : Rom) (bank : Nat) {cursor k : Nat} (hk : k < 3)
    (hstop : cursor + k < (rom.bankRange bank).stop) :
    (rom.windowAt bank cursor).readable[k]? = rom.bytes[cursor + k]? := by
  have hremaining : k < (rom.bankRange bank).stop - cursor := by omega
  have hcount : k < min (rom.windowAt bank cursor).remaining 3 := Nat.lt_min.mpr ⟨hremaining, hk⟩
  rw [Window.readable, List.getElem?_take_of_lt hcount]
  simp only [bytes_windowAt, Array.toList_extract, List.extract_eq_take_drop]
  rw [List.getElem?_take_of_lt hremaining, List.getElem?_drop, Array.getElem?_toList]

/-- A line gives back bytes of the image, but for the second byte of a held jump. -/
theorem lineBytes?_of_mem_allVisits {rom : Rom} (hsize : rom.size ≤ 2 ^ 32) (visit : Visit)
    (h : visit ∈ rom.allVisits decode) :
    ∃ bytes, (∀ width, Reassembly.lineBytes? (visit.line width).toList = some (visit.cursor, bytes)) ∧
      bytes.length = visit.instruction.length ∧
      ∀ k < bytes.length, bytes[k]? = rom.bytes[visit.cursor + k]? ∨ k = 1 ∧ visit.IsHeldJump := by
  obtain ⟨bank, _, hvisit⟩ := (rom.mem_allVisits decode).mp h
  obtain ⟨bytes, ⟨source, htext, hbytes⟩, hrestores⟩ := Rom.tells_of_mem_visits hvisit
  refine ⟨bytes, fun width => ?_, hrestores.length_eq, fun k hk => ?_⟩
  · rw [Visit.line, Reassembly.lineBytes?_render htext hbytes,
      Rom.address_of_mem_allVisits hsize h]
  · have hbounds := (rom.tiles_visits bank).bounds visit hvisit
    have hthree := (rom.tiles_visits bank).length_le visit hvisit
    have hlength := hrestores.length_eq
    rw [← rom.getElem?_readable_windowAt bank (by omega) (by omega),
      ← Rom.window_of_mem_visits hvisit]
    exact hrestores.byte_eq k hk

/-- Visits that tile a stretch of the image and give back the image's bytes one by one do so for the
whole stretch. -/
theorem Tiles.flatMap_restores {rom : Rom} {start stop : Nat} {visits : List Visit}
    {bytes : Visit → List UInt8} (h : Tiles stop start visits)
    (hlength : ∀ visit ∈ visits, (bytes visit).length = visit.instruction.length)
    (hbyte : ∀ visit ∈ visits, ∀ k < (bytes visit).length,
      (bytes visit)[k]? = rom.bytes[visit.cursor + k]? ∨ k = 1 ∧ visit.IsHeldJump) :
    (visits.flatMap bytes).length = stop - start ∧
      ∀ k < stop - start, (visits.flatMap bytes)[k]? = rom.bytes[start + k]? ∨
        ∃ visit ∈ visits, visit.IsHeldJump ∧ start + k = visit.cursor + 1 := by
  induction h with
  | done => simp
  | @step visit visits _ _ hrest ih =>
      have hfirst := hlength visit List.mem_cons_self
      have hend := hrest.start_le
      obtain ⟨ihlength, ihbyte⟩ := ih (fun other hother => hlength other (List.mem_cons_of_mem _ hother))
        fun other hother => hbyte other (List.mem_cons_of_mem _ hother)
      rw [List.flatMap_cons]
      refine ⟨by rw [List.length_append, ihlength]; omega, fun k hk => ?_⟩
      -- An offset belongs to the first visit or to one of the others.
      by_cases hin : k < (bytes visit).length
      · rw [List.getElem?_append_left hin]
        rcases hbyte visit List.mem_cons_self k hin with hsame | ⟨rfl, hheld⟩
        · exact .inl hsame
        · exact .inr ⟨visit, List.mem_cons_self, hheld, rfl⟩
      · have hoffset : visit.cursor + visit.instruction.length + (k - (bytes visit).length) =
            visit.cursor + k := by omega
        rw [List.getElem?_append_right (by omega)]
        rcases ihbyte (k - (bytes visit).length) (by omega) with hsame | ⟨other, hother, hheld, heq⟩
        · exact .inl (hoffset ▸ hsame)
        · exact .inr ⟨other, List.mem_cons_of_mem _ hother, hheld, by omega⟩

/-- The text of a lenient listing gives back the whole banks of the image byte for byte, except for the
distances of the jumps near the start of the image that are held at `$0000`. -/
theorem reassemble?_disassemble (rom : Rom) (width : Nat) (hsize : rom.size < 2 ^ 32)
    (hwidth : disassemble { policy := .lenient, width := width } rom ≠ .error .tooWide) :
    ∃ listing bytes, disassemble { policy := .lenient, width := width } rom = .ok listing ∧
      reassemble? listing = some bytes ∧ bytes.length = rom.size - rom.trailingBytes ∧
      ∀ i < rom.size - rom.trailingBytes, bytes[i]? = rom.bytes[i]? ∨
        ∃ visit ∈ rom.allVisits decode, visit.IsHeldJump ∧ i = visit.cursor + 1 ∧
          visit.cursor ≤ 0x7d := by
  obtain ⟨listing, hlisting⟩ := lenient_eq_ok hwidth
  choose! bytes hline hlength hbyte using lineBytes?_of_mem_allVisits hsize.le
  have hpieces : Reassembly.pieces? listing =
      some ((rom.allVisits decode).map fun visit => (visit.cursor, bytes visit)) := by
    rw [Reassembly.pieces?, codeLines_disassemble hlisting]
    exact mapM_map_eq_some fun visit hvisit => hline visit hvisit width
  obtain ⟨hcount, hrestored⟩ := rom.tiles_allVisits.flatMap_restores hlength hbyte
  rw [rom.size_sub_trailingBytes]
  refine ⟨listing, (rom.allVisits decode).flatMap bytes, hlisting, ?_, hcount, fun i hi => ?_⟩
  · rw [reassemble?, hpieces, Option.map_some, List.flatMap_map]
  · rcases hrestored i hi with hsame | ⟨visit, hvisit, hheld, hplace⟩
    · exact .inl (by rwa [Nat.zero_add] at hsame)
    · refine .inr ⟨visit, hvisit, hheld, by omega, ?_⟩
      rw [← Rom.address_of_mem_allVisits hsize.le hvisit]
      exact hheld.2.toNat_le

/-- A jump from `$0000` by minus six bytes is printed with the target `$0000`, so it reads back as a jump
by minus two. All other bytes are the image's. -/
theorem reassemble?_held_jump :
    ∃ listing, disassemble { policy := .lenient, width := 0 } ⟨#[0x18, 0xfa, 0x3e, 0x12], false⟩ =
      .ok listing ∧ reassemble? listing = some [0x18, 0xfe, 0x3e, 0x12] := by
  obtain ⟨listing, _, hlisting, _⟩ :=
    reassemble?_disassemble ⟨#[0x18, 0xfa, 0x3e, 0x12], false⟩ 0 (by decide) (by decide +kernel)
  have hread : (disassemble { policy := .lenient, width := 0 }
      ⟨#[0x18, 0xfa, 0x3e, 0x12], false⟩).toOption.bind reassemble? =
        some [0x18, 0xfe, 0x3e, 0x12] := by
    decide +kernel
  rw [hlisting] at hread
  exact ⟨listing, hlisting, hread⟩

end RomListing
