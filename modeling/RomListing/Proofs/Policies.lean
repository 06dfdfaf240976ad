import RomListing.Proofs.Decoding
import RomListing.Proofs.Driver

/-! The two policies side by side. They take the same walk, and a strict run is a lenient run that is
cut short at the first place where the decoder finds an undefined opcode. -/

namespace RomListing

namespace Rom

variable (rom : Rom) (decoder : Decoder)

/-- The banks and offsets at which the decoder is asked, in order: where a walk stops at no header
byte. -/
def places : List (Nat × Nat) :=
  (List.range rom.bankCount).flatMap fun bank =>
    ((rom.cursors decoder bank).filter fun cursor =>
      !rom.isHeaderByte (UInt32.ofNat cursor)).map (bank, ·)

/-- The decoder finds an undefined opcode at a bank's offset and tells this error. -/
def UndefinedAt (place : Nat × Nat) (error : DecodeError) : Prop :=
  decoder (rom.windowAt place.1 place.2) = .error error ∧ error.fault = .undefinedOpcode

/-- The error that a strict run does not put up with at a place. -/
def refusalAt? (place : Nat × Nat) : Option DecodeError :=
  (rom.visitAt decoder place.1 place.2).refusal? .strict

variable {rom decoder}

theorem mem_places {bank cursor : Nat} :
    (bank, cursor) ∈ rom.places decoder ↔ bank < rom.bankCount ∧ cursor ∈ rom.cursors decoder bank ∧
      rom.isHeaderByte (UInt32.ofNat cursor) = false := by
  simp only [places, List.mem_flatMap, List.mem_range, List.mem_map, List.mem_filter,
    Bool.not_eq_true', Prod.mk.injEq]
  constructor
  · rintro ⟨_, hbank, _, hcursor, rfl, rfl⟩
    exact ⟨hbank, hcursor⟩
  · rintro ⟨hbank, hcursor⟩
    exact ⟨bank, hbank, cursor, hcursor, rfl, rfl⟩

theorem refusalAt?_of_header {bank cursor : Nat}
    (h : rom.isHeaderByte (UInt32.ofNat cursor) = true) :
    rom.refusalAt? decoder (bank, cursor) = none := by
  unfold refusalAt? visitAt
  rw [if_pos h]
  rfl

theorem refusalAt?_eq_some_iff {place : Nat × Nat} {error : DecodeError}
    (h : rom.isHeaderByte (UInt32.ofNat place.2) = false) :
    rom.refusalAt? decoder place = some error ↔ rom.UndefinedAt decoder place error := by
  unfold refusalAt? visitAt UndefinedAt Visit.refusal?
  rw [if_neg (by simp [h])]
  cases decoder (rom.windowAt place.1 place.2) with
  | ok instruction => simp [Item.ofResult]
  | error found =>
      simp only [Item.ofResult, Policy.refuses, decide_eq_true_eq, Option.ite_none_right_eq_some,
        Option.some_inj, Except.error.injEq]
      constructor
      · rintro ⟨hfault, rfl⟩
        exact ⟨rfl, hfault⟩
      · rintro ⟨rfl, hfault⟩
        exact ⟨hfault, rfl⟩

theorem refusalAt?_eq_none_iff {place : Nat × Nat}
    (h : rom.isHeaderByte (UInt32.ofNat place.2) = false) :
    rom.refusalAt? decoder place = none ↔ ∀ error, ¬rom.UndefinedAt decoder place error := by
  rw [Option.eq_none_iff_forall_ne_some]
  exact forall_congr' fun error => not_congr (refusalAt?_eq_some_iff h)

variable (rom decoder)

/-- What a strict run refuses, it refuses where the decoder is asked. -/
theorem filterMap_refusal?_allVisits :
    (rom.allVisits decoder).filterMap (Visit.refusal? .strict) =
      (rom.places decoder).filterMap (rom.refusalAt? decoder) := by
  rw [allVisits, places, List.filterMap_flatMap, List.filterMap_flatMap]
  congr 1
  funext bank
  rw [visits_eq_map, List.filterMap_map, List.filterMap_map, List.filterMap_filter]
  congr 1
  funext cursor
  cases hheader : rom.isHeaderByte (UInt32.ofNat cursor) with
  | true => exact refusalAt?_of_header hheader
  | false => rfl

theorem refusalAt?_eq_none_iff_of_mem (places : List (Nat × Nat))
    (hsub : ∀ place ∈ places, place ∈ rom.places decoder) :
    (∀ place ∈ places, rom.refusalAt? decoder place = none) ↔
      ∀ place ∈ places, ∀ error, ¬rom.UndefinedAt decoder place error :=
  forall₂_congr fun place hmem => refusalAt?_eq_none_iff (mem_places.mp (hsub place hmem)).2.2

/-- The first error that a strict run refuses is the error at the first undefined opcode. -/
theorem findSome?_refusalAt?_eq_some_iff {error : DecodeError} :
    (rom.places decoder).findSome? (rom.refusalAt? decoder) = some error ↔
      ∃ before place after, rom.places decoder = before ++ place :: after ∧
        (∀ earlier ∈ before, ∀ error, ¬rom.UndefinedAt decoder earlier error) ∧
        rom.UndefinedAt decoder place error := by
  rw [List.findSome?_eq_some_iff]
  refine exists_congr fun before => exists_congr fun place => exists_congr fun after => ?_
  refine and_congr_right fun hplaces => ?_
  have hbefore := rom.refusalAt?_eq_none_iff_of_mem decoder before
    fun earlier hmem => hplaces ▸ List.mem_append_left _ hmem
  have hplace : place ∈ rom.places decoder := by
    rw [hplaces]
    exact List.mem_append_right _ List.mem_cons_self
  rw [refusalAt?_eq_some_iff (mem_places.mp hplace).2.2, hbefore, and_comm]

/-- The decoder of the instruction set tells the byte and the address of an undefined opcode. -/
theorem eq_of_undefinedAt_decode {bank cursor : Nat} {error : DecodeError}
    (hcursor : cursor < (rom.bankRange bank).stop)
    (herror : rom.UndefinedAt decode (bank, cursor) error) :
    ∃ byte, rom.bytes[cursor]? = some byte ∧
      error = ⟨.undefinedOpcode, byte, UInt32.ofNat cursor⟩ := by
  refine ⟨rom.bytes.getD cursor 0, rom.getElem?_bytes bank hcursor, ?_⟩
  obtain ⟨rest, hreadable⟩ := rom.readable_windowAt bank hcursor
  rw [decode_eq_error herror.1, herror.2, hreadable]
  rfl

end Rom

variable {rom : Rom} {decoder : Decoder} {width : Nat}

/-- Where a lenient run does not fail, a strict one fails for a refused error only. -/
theorem failure?_strict_of_lenient {visit : Visit}
    (h : visit.failure? { policy := .lenient, width := width } = none) :
    visit.failure? { policy := .strict, width := width } =
      (visit.refusal? .strict).map .undefined := by
  unfold Visit.failure? at h ⊢
  rw [visit.refusal?_lenient] at h
  cases visit.refusal? .strict with
  | some error => rfl
  | none => exact h

/-- A strict run tells the first error that it refuses. -/
theorem findSome?_failure?_strict {visits : List Visit}
    (h : ∀ visit ∈ visits, visit.failure? { policy := .lenient, width := width } = none) :
    visits.findSome? (Visit.failure? { policy := .strict, width := width }) =
      (visits.findSome? (Visit.refusal? .strict)).map .undefined := by
  rw [← List.head?_filterMap, ← List.head?_filterMap, ← List.head?_map, List.map_filterMap]
  congr 1
  exact List.filterMap_congr fun visit hmem => failure?_strict_of_lenient (h visit hmem)

/-- **Strict and lenient runs.** Where the lenient run makes a listing, the strict run makes the same one,
or fails with the error of the first place at which the lenient run finds an undefined opcode. -/
theorem strict_run_iff_lenient_run (rom : Rom) (decoder : Decoder) (width : Nat)
    (h : disassembleWith decoder { policy := .lenient, width := width } rom ≠ .error .tooWide) :
    ∃ listing, disassembleWith decoder { policy := .lenient, width := width } rom = .ok listing ∧
      (∀ text, disassembleWith decoder { policy := .strict, width := width } rom = .ok text ↔
        text = listing ∧
          ∀ place ∈ rom.places decoder, ∀ error, ¬rom.UndefinedAt decoder place error) ∧
      (∀ failure, disassembleWith decoder { policy := .strict, width := width } rom = .error failure ↔
        ∃ before place after error, rom.places decoder = before ++ place :: after ∧
          (∀ earlier ∈ before, ∀ error, ¬rom.UndefinedAt decoder earlier error) ∧
          rom.UndefinedAt decoder place error ∧ failure = .undefined error) ∧
      (decoder = decode → ∀ bank cursor error, (bank, cursor) ∈ rom.places decoder →
        rom.UndefinedAt decoder (bank, cursor) error →
          rom.isHeaderByte (UInt32.ofNat cursor) = false ∧ ∃ byte, rom.bytes[cursor]? = some byte ∧
            error = ⟨.undefinedOpcode, byte, UInt32.ofNat cursor⟩) ∧
      ∀ policy, disassembleLoop decoder { policy := policy, width := width } rom =
        (disassembleWith decoder { policy := policy, width := width } rom,
          Listing.log { policy := policy, width := width } (rom.events decoder),
          Listing.calls { policy := policy, width := width } (rom.events decoder)) := by
  obtain ⟨listing, hlisting⟩ := lenient_eq_ok h
  obtain ⟨hnone, htext⟩ := disassembleWith_eq_ok_iff.mp hlisting
  have hstrict : (rom.allVisits decoder).findSome? (Visit.failure? { policy := .strict, width := width }) =
      ((rom.places decoder).findSome? (rom.refusalAt? decoder)).map .undefined := by
    rw [findSome?_failure?_strict hnone, ← List.head?_filterMap, ← List.head?_filterMap,
      rom.filterMap_refusal?_allVisits]
  refine ⟨listing, hlisting, ?_, ?_, ?_, fun policy => disassembleLoop_eq decoder _ rom⟩
  · intro text
    rw [disassembleWith_eq_ok_iff, ← List.findSome?_eq_none_iff, hstrict, Option.map_eq_none_iff,
      List.findSome?_eq_none_iff, rom.refusalAt?_eq_none_iff_of_mem decoder _ fun _ hmem => hmem,
      htext, and_comm]
  · intro failure
    rw [disassembleWith_eq_error_iff, hstrict, Option.map_eq_some_iff]
    simp only [rom.findSome?_refusalAt?_eq_some_iff decoder]
    constructor
    · rintro ⟨error, ⟨before, place, after, hplaces, hbefore, hplace⟩, rfl⟩
      exact ⟨before, place, after, error, hplaces, hbefore, hplace, rfl⟩
    · rintro ⟨before, place, after, error, hplaces, hbefore, hplace, rfl⟩
      exact ⟨error, ⟨before, place, after, hplaces, hbefore, hplace⟩, rfl⟩
  · rintro rfl bank cursor error hmem herror
    obtain ⟨_, hcursor, hplace⟩ := Rom.mem_places.mp hmem
    exact ⟨hplace, rom.eq_of_undefinedAt_decode
      (rom.bounds_of_mem_cursors decode bank hcursor).2 herror⟩

/-- An image with an undefined opcode everywhere in the header area and one behind it. A load in front of
the area takes two of them as its operand. -/
def refusedImage : Rom :=
  ⟨⟨List.replicate 0x103 0x00 ++ 0x01 :: List.replicate 0x4d 0xd3⟩, true⟩

/-- The undefined byte counts where it is exposed, and neither as an operand nor as a header byte. -/
theorem strict_run_stops_at_exposed_opcode :
    ∃ before place after, refusedImage.places decode = before ++ place :: after ∧
      refusedImage.UndefinedAt decode place ⟨.undefinedOpcode, 0xd3, 0x150⟩ ∧
      ∀ earlier ∈ before, ∀ error, ¬refusedImage.UndefinedAt decode earlier error := by
  obtain ⟨_, _, _, herror, _⟩ := strict_run_iff_lenient_run refusedImage decode 0
    (ne_tooWide_of_width_le (Nat.zero_le _))
  have hrefusal : (refusedImage.allVisits decode).findSome? (Visit.refusal? .strict) =
      some ⟨.undefinedOpcode, 0xd3, 0x150⟩ := by
    rw [Rom.allVisits_eq]
    decide +kernel
  have hstrict : disassembleWith decode { policy := .strict, width := 0 } refusedImage =
      .error (.undefined ⟨.undefinedOpcode, 0xd3, 0x150⟩) :=
    disassembleWith_of_refused (ne_tooWide_of_width_le (Nat.zero_le _)) hrefusal
  obtain ⟨before, place, after, error, hplaces, hbefore, hplace, heq⟩ := (herror _).mp hstrict
  cases heq
  exact ⟨before, place, after, hplaces, hplace, hbefore⟩

end RomListing
