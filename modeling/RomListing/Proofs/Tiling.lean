import RomListing.Proofs.ReadBack

/-! The instructions of an image lie side by side. An instruction takes readable bytes only, so the walk
through a bank ends exactly at the bank's end, and the banks lie side by side themselves. The addresses
of a listing are therefore the places where its instructions start. -/

namespace RomListing

/-- The offsets an instruction takes. -/
def Visit.offsets (visit : Visit) : List Nat := List.range' visit.cursor visit.instruction.length

/-- Visits that tile the offsets from `start` up to `stop`: each one starts where the one before it
ends, and takes one to three bytes. -/
inductive Tiles (stop : Nat) : Nat → List Visit → Prop
  | done : Tiles stop stop []
  | step {visit : Visit} {visits : List Visit} : 1 ≤ visit.instruction.length →
      visit.instruction.length ≤ 3 →
      Tiles stop (visit.cursor + visit.instruction.length) visits →
      Tiles stop visit.cursor (visit :: visits)

namespace Tiles

variable {start stop : Nat} {visits : List Visit}

theorem start_le (h : Tiles stop start visits) : start ≤ stop := by
  induction h with
  | done => exact Nat.le_refl _
  | step _ _ _ ih => omega

theorem append {next : Nat} {others : List Visit} (h : Tiles next start visits)
    (hnext : Tiles stop next others) : Tiles stop start (visits ++ others) := by
  induction h with
  | done => exact hnext
  | step hpos hle _ ih => exact .step hpos hle ih

/-- No visit reaches out of the offsets that are tiled. -/
theorem bounds (h : Tiles stop start visits) :
    ∀ visit ∈ visits, start ≤ visit.cursor ∧ visit.cursor + visit.instruction.length ≤ stop := by
  induction h with
  | done =>
      intro visit hmem
      exact absurd hmem List.not_mem_nil
  | step _ _ hrest ih =>
      intro visit hmem
      rcases List.mem_cons.mp hmem with rfl | hmem
      · exact ⟨Nat.le_refl _, hrest.start_le⟩
      · have := ih visit hmem
        omega

theorem length_le (h : Tiles stop start visits) :
    ∀ visit ∈ visits, visit.instruction.length ≤ 3 := by
  induction h with
  | done =>
      intro visit hmem
      exact absurd hmem List.not_mem_nil
  | step _ hle _ ih =>
      intro visit hmem
      rcases List.mem_cons.mp hmem with rfl | hmem
      · exact hle
      · exact ih visit hmem

theorem sum_length (h : Tiles stop start visits) :
    (visits.map fun visit => visit.instruction.length).sum = stop - start := by
  induction h with
  | done => simp
  | step _ _ hrest ih =>
      have := hrest.start_le
      rw [List.map_cons, List.sum_cons, ih]
      omega

/-- Every offset is taken once, and they are taken in order. -/
theorem flatMap_offsets (h : Tiles stop start visits) :
    visits.flatMap Visit.offsets = List.range' start (stop - start) := by
  induction h with
  | done => simp
  | @step visit _ _ _ hrest ih =>
      have hle := hrest.start_le
      have hcount : stop - visit.cursor =
          visit.instruction.length + (stop - (visit.cursor + visit.instruction.length)) := by
        omega
      rw [List.flatMap_cons, ih, hcount, Visit.offsets, List.range'_append_1]

theorem pairwise_lt (h : Tiles stop start visits) : (visits.map Visit.cursor).Pairwise (· < ·) := by
  induction h with
  | done => exact List.Pairwise.nil
  | step _ _ hrest ih =>
      refine List.Pairwise.cons (fun cursor hmem => ?_) ih
      obtain ⟨visit, hvisit, rfl⟩ := List.mem_map.mp hmem
      have := hrest.bounds visit hvisit
      omega

end Tiles

namespace Rom

variable (rom : Rom) (bank : Nat)

/-- The decoder of the instruction set never asks for more bytes than are left in the bank. -/
theorem stride_decode {cursor : Nat} (h : cursor < (rom.bankRange bank).stop) :
    1 ≤ rom.stride decode bank cursor ∧ rom.stride decode bank cursor ≤ 3 ∧
      cursor + rom.stride decode bank cursor ≤ (rom.bankRange bank).stop := by
  unfold stride
  split
  · omega
  · cases hresult : decode (rom.windowAt bank cursor) with
    | error _ =>
        simp only
        omega
    | ok instruction =>
        have hdecodes := decode_eq_ok hresult
        have hpos := hdecodes.length_pos
        have hle := hdecodes.length_le
        rw [Window.readable, List.length_take] at hle
        have hremaining : (rom.windowAt bank cursor).remaining = (rom.bankRange bank).stop - cursor :=
          rfl
        simp only
        omega

/-- The visits of a bank tile the bank. -/
theorem tiles_visits :
    Tiles (rom.bankRange bank).stop (rom.bankRange bank).start (rom.visits decode bank) := by
  rw [visits_eq_walk]
  refine rom.walk_induction decode bank
    (motive := fun cursor visits => cursor ≤ (rom.bankRange bank).stop →
      Tiles (rom.bankRange bank).stop cursor visits) ?_ ?_ _ (rom.bankRange_start_le_stop bank)
  · intro cursor hstop hle
    obtain rfl := Nat.le_antisymm hle hstop
    exact .done
  · intro cursor visits hlt ih _
    obtain ⟨hpos, hthree, hle⟩ := rom.stride_decode bank hlt
    have hlength := rom.length_visitAt decode bank cursor
    rw [Nat.max_eq_left hpos] at ih
    refine @Tiles.step _ (rom.visitAt decode bank cursor) _ ?_ ?_ ?_
    · rw [hlength]
      exact hpos
    · rw [hlength]
      exact hthree
    · rw [hlength]
      exact ih hle

/-- The visits of all banks tile the whole banks of the image. -/
theorem tiles_allVisits : Tiles rom.wholeSize 0 (rom.allVisits decode) := by
  have hbanks : ∀ count, Tiles (rom.bankRange count).start 0
      ((List.range count).flatMap (rom.visits decode)) := by
    intro count
    induction count with
    | zero =>
        rw [bankRange_start, Nat.zero_mul, Nat.zero_min]
        exact .done
    | succ count ih =>
        rw [List.range_succ, List.flatMap_append, List.flatMap_singleton,
          ← bankRange_stop_eq_start]
        exact ih.append (rom.tiles_visits count)
  exact hbanks rom.bankCount

end Rom

variable {rom : Rom} {options : Options} {listing : String}

theorem Rom.address_of_mem_allVisits {visit : Visit} (hsize : rom.size ≤ 2 ^ 32)
    (h : visit ∈ rom.allVisits decode) : visit.address.toNat = visit.cursor := by
  obtain ⟨bank, _, hvisit⟩ := (rom.mem_allVisits decode).mp h
  have hlt := (Rom.bounds_of_mem_visits hvisit).2
  have hstop := rom.bankRange_stop_le_size bank
  rw [Rom.address_of_mem_visits hvisit, UInt32.toNat_ofNat', Nat.mod_eq_of_lt (by omega)]

/-- A listing prints the offsets of its visits, as long as they fit into 32 bits. -/
theorem addresses?_disassemble (hsize : rom.size ≤ 2 ^ 32)
    (h : disassemble options rom = .ok listing) :
    Reassembly.addresses? listing = some ((rom.allVisits decode).map Visit.cursor) := by
  rw [Reassembly.addresses?, codeLines_disassemble h]
  refine mapM_map_eq_some fun visit hvisit => ?_
  rw [Visit.line, Line.lineAddress?_render, Rom.address_of_mem_allVisits hsize hvisit]

/-- A listing of an image shows instructions of one to three bytes that tile every bank exactly. Taken
together they take each byte of the whole banks once and in order, so they start at increasing offsets,
and these are the addresses behind the lines. -/
theorem listing_tiles_image (h : disassemble options rom = .ok listing) :
    listing = "\n".intercalate ((List.range rom.bankCount).flatMap fun bank =>
        Line.sectionMarker bank :: (rom.visits decode bank).map (Visit.line options.width)) ∧
      (∀ bank < rom.bankCount,
        Tiles (rom.bankRange bank).stop (rom.bankRange bank).start (rom.visits decode bank) ∧
          (∀ visit ∈ rom.visits decode bank, (rom.bankRange bank).start ≤ visit.cursor ∧
            visit.cursor + visit.instruction.length ≤ (rom.bankRange bank).stop) ∧
          ((rom.visits decode bank).map fun visit => visit.instruction.length).sum =
            (rom.bankRange bank).size) ∧
      (rom.allVisits decode).flatMap Visit.offsets = List.range (rom.size - rom.trailingBytes) ∧
      (rom.size ≤ 2 ^ 32 →
        Reassembly.addresses? listing = some ((rom.allVisits decode).map Visit.cursor) ∧
          ((rom.allVisits decode).map Visit.cursor).Pairwise (· < ·)) := by
  have htiles := rom.tiles_allVisits
  refine ⟨(disassembleWith_eq_ok_iff.mp h).2, ?_, ?_, ?_⟩
  · intro bank _
    have hbank := rom.tiles_visits bank
    exact ⟨hbank, hbank.bounds, hbank.sum_length⟩
  · rw [htiles.flatMap_offsets, rom.size_sub_trailingBytes, List.range_eq_range', Nat.sub_zero]
  · intro hsize
    exact ⟨addresses?_disassemble hsize h, htiles.pairwise_lt⟩

/-- A stop that no zero follows and an instruction cut short at the end of the image take a byte each. -/
theorem listing_tiles_snippet :
    Reassembly.addresses? ("SECTION \"rom0\", ROM0\nld a, $12;$0000\ndb $10 ; corrupted stop;$0002\n" ++
        "db $01 ; truncated instruction;$0003") = some [0, 2, 3] ∧
      ((Rom.mk #[0x3e, 0x12, 0x10, 0x01] false).allVisits decode).flatMap Visit.offsets =
        [0, 1, 2, 3] := by
  have hlisting : disassemble { policy := .strict, width := 0 } ⟨#[0x3e, 0x12, 0x10, 0x01], false⟩ =
      .ok ("SECTION \"rom0\", ROM0\nld a, $12;$0000\ndb $10 ; corrupted stop;$0002\n" ++
        "db $01 ; truncated instruction;$0003") := by
    decide +kernel
  obtain ⟨_, _, hoffsets, haddresses⟩ := listing_tiles_image hlisting
  have hcursors : ((Rom.mk #[0x3e, 0x12, 0x10, 0x01] false).allVisits decode).map Visit.cursor =
      [0, 2, 3] := by
    decide +kernel
  exact ⟨hcursors ▸ (haddresses (by decide)).1, hoffsets⟩

end RomListing
