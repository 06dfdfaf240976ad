import Mathlib.Data.List.TakeWhile
import RomListing.Listing
import RomListing.Proofs.Walk

/-! A listing in terms of the visits of its image. Only a visit can stop a listing, so a listing that
is made shows one line for the start of each bank and one for each visit, in order. -/

namespace RomListing

namespace Rom

variable (rom : Rom) (decoder : Decoder) (width : Nat)

/-- The visits of all banks, in order. -/
def allVisits : List Visit := (List.range rom.bankCount).flatMap (rom.visits decoder)

/-- The lines of a bank. -/
def bankLines (bank : Nat) : List String :=
  Line.sectionMarker bank :: (rom.visits decoder bank).map (Visit.line width)

/-- The lines of all banks, in order. -/
def lines : List String := (List.range rom.bankCount).flatMap (rom.bankLines decoder width)

/-- There is at least one bank, and it has a line. -/
theorem lines_ne_nil : rom.lines decoder width ≠ [] := by
  intro hnil
  have hbank := List.flatMap_eq_nil_iff.mp hnil 0 (List.mem_range.mpr rom.bankCount_pos)
  exact absurd hbank (List.cons_ne_nil _ _)

theorem mem_allVisits {visit : Visit} :
    visit ∈ rom.allVisits decoder ↔ ∃ bank < rom.bankCount, visit ∈ rom.visits decoder bank := by
  simp only [allVisits, List.mem_flatMap, List.mem_range]

/-- The visits of all banks, as walks through lists of bytes. -/
theorem allVisits_eq : rom.allVisits decoder = (List.range rom.bankCount).flatMap fun bank =>
    (rom.walk decoder bank).visits 0 (rom.bankRange bank).start
      ((rom.bytes.toList.drop (rom.bankRange bank).start).take
        ((rom.bankRange bank).stop - (rom.bankRange bank).start)) := by
  simp only [← bankBytes_eq]
  rfl

theorem mem_lines {line : String} :
    line ∈ rom.lines decoder width ↔ (∃ bank < rom.bankCount, line = Line.sectionMarker bank) ∨
      ∃ visit ∈ rom.allVisits decoder, line = visit.line width := by
  simp only [lines, bankLines, allVisits, List.mem_flatMap, List.mem_range, List.mem_cons,
    List.mem_map]
  constructor
  · rintro ⟨bank, hbank, hmarker | ⟨visit, hvisit, heq⟩⟩
    · exact .inl ⟨bank, hbank, hmarker⟩
    · exact .inr ⟨visit, ⟨bank, hbank, hvisit⟩, heq.symm⟩
  · rintro (⟨bank, hbank, hmarker⟩ | ⟨visit, ⟨bank, hbank, hvisit⟩, heq⟩)
    · exact ⟨bank, hbank, .inl hmarker⟩
    · exact ⟨bank, hbank, .inr ⟨visit, hvisit, heq.symm⟩⟩

/-- Whatever is read off the events is read off the trailing bytes, the starts of the banks and the
visits. -/
theorem filterMap_events {α : Type} (f : Event → Option α) :
    (rom.events decoder).filterMap f =
      (if rom.trailingBytes = 0 then none else f (.trailing rom.trailingBytes)).toList ++
        (List.range rom.bankCount).flatMap fun bank =>
          (f (.bank bank (rom.bankRange bank))).toList ++
            (rom.visits decoder bank).filterMap (fun visit => f (.visited visit)) := by
  have hcons : ∀ (event : Event) (events : List Event),
      (event :: events).filterMap f = (f event).toList ++ events.filterMap f := by
    intro event events
    rw [List.filterMap_cons]
    cases f event <;> rfl
  have hbank : ∀ bank, (rom.bankEvents decoder bank).filterMap f =
      (f (.bank bank (rom.bankRange bank))).toList ++
        (rom.visits decoder bank).filterMap (fun visit => f (.visited visit)) := by
    intro bank
    rw [bankEvents, hcons, List.filterMap_map]
    rfl
  rw [events, List.filterMap_append, List.filterMap_flatMap]
  simp only [hbank]
  congr 1
  split
  · rfl
  · rw [hcons, List.filterMap_nil, List.append_nil]

/-- What is read off the visits alone is read off all of them, in order. -/
theorem filterMap_events_of_visits {α : Type} {f : Event → Option α} {g : Visit → Option α}
    (htrailing : ∀ count, f (.trailing count) = none) (hbank : ∀ bank span, f (.bank bank span) = none)
    (hvisited : ∀ visit, f (.visited visit) = g visit) :
    (rom.events decoder).filterMap f = (rom.allVisits decoder).filterMap g := by
  simp only [filterMap_events, htrailing, hbank, hvisited, ite_self, Option.toList_none,
    List.nil_append, allVisits, List.filterMap_flatMap]

theorem filterMap_line?_events :
    (rom.events decoder).filterMap (Event.line? width) = rom.lines decoder width := by
  have hbank : ∀ bank, (Event.line? width (.bank bank (rom.bankRange bank))).toList ++
      (rom.visits decoder bank).filterMap (fun visit => Event.line? width (.visited visit)) =
        rom.bankLines decoder width bank := by
    intro bank
    rw [bankLines, ← List.filterMap_eq_map]
    rfl
  rw [filterMap_events]
  simp only [hbank]
  rw [Event.line?, ite_self, Option.toList_none, List.nil_append, lines]

theorem filterMap_call?_events :
    (rom.events decoder).filterMap Event.call? = (rom.allVisits decoder).filterMap Visit.call? :=
  rom.filterMap_events_of_visits decoder (fun _ => rfl) (fun _ _ => rfl) fun _ => rfl

theorem findSome?_failure?_events (options : Options) :
    (rom.events decoder).findSome? (Event.failure? options) =
      (rom.allVisits decoder).findSome? (Visit.failure? options) := by
  rw [← List.head?_filterMap, ← List.head?_filterMap,
    rom.filterMap_events_of_visits decoder (g := Visit.failure? options) (fun _ => rfl)
      (fun _ _ => rfl) fun _ => rfl]

end Rom

variable {decoder : Decoder} {options : Options} {rom : Rom}

/-- A listing fails at the first visit that stops it. -/
theorem disassembleWith_eq_error_iff {failure : Failure} :
    disassembleWith decoder options rom = .error failure ↔
      (rom.allVisits decoder).findSome? (Visit.failure? options) = some failure := by
  rw [disassembleWith, Listing.text, rom.findSome?_failure?_events]
  cases (rom.allVisits decoder).findSome? (Visit.failure? options) with
  | none => simp
  | some first => simp

/-- A listing is made if no visit stops it, and then it shows all lines. -/
theorem disassembleWith_eq_ok_iff {listing : String} :
    disassembleWith decoder options rom = .ok listing ↔
      (∀ visit ∈ rom.allVisits decoder, visit.failure? options = none) ∧
        listing = "\n".intercalate (rom.lines decoder options.width) := by
  rw [disassembleWith, Listing.text, rom.findSome?_failure?_events,
    ← List.findSome?_eq_none_iff, rom.filterMap_line?_events]
  cases (rom.allVisits decoder).findSome? (Visit.failure? options) with
  | none => simp [eq_comm]
  | some first => simp

/-- Only a visit can fail. -/
theorem failure?_of_mem_events (h : ∀ visit ∈ rom.allVisits decoder, visit.failure? options = none) :
    ∀ event ∈ rom.events decoder, event.failure? options = none := by
  have hfind := rom.findSome?_failure?_events decoder options
  rwa [List.findSome?_eq_none_iff.mpr h, List.findSome?_eq_none_iff] at hfind

namespace Listing

variable {event : Event} {events more : List Event}

theorem isNone_of_failure?_eq_none (h : ∀ event ∈ events, event.failure? options = none) :
    ∀ event ∈ events, (event.failure? options).isNone := by
  intro event hevent
  rw [h event hevent]
  rfl

/-- Without a failure every event takes place. -/
theorem reached_eq_self (h : ∀ event ∈ events, event.failure? options = none) :
    reached options events = events := by
  have hnone := isNone_of_failure?_eq_none h
  rw [reached, List.takeWhile_eq_self_iff.mpr hnone, List.dropWhile_eq_nil_iff.mpr hnone,
    List.take_nil, List.append_nil]

theorem reached_cons_of_none (h : event.failure? options = none) :
    reached options (event :: events) = event :: reached options events := by
  simp [reached, h]

theorem reached_cons_of_some {failure : Failure} (h : event.failure? options = some failure) :
    reached options (event :: events) = [event] := by
  simp [reached, h]

/-- Behind events that do not fail, further events take place as they would alone. -/
theorem reached_append_of_none (h : ∀ event ∈ events, event.failure? options = none) :
    reached options (events ++ more) = events ++ reached options more := by
  induction events with
  | nil => rfl
  | cons event events ih =>
      obtain ⟨hevent, hevents⟩ := List.forall_mem_cons.mp h
      rw [List.cons_append, reached_cons_of_none hevent, ih hevents, List.cons_append]

/-- Behind a failure no event takes place. -/
theorem reached_append_of_some {failure : Failure}
    (h : events.findSome? (Event.failure? options) = some failure) :
    reached options (events ++ more) = reached options events := by
  induction events with
  | nil => contradiction
  | cons event events ih =>
      rw [List.cons_append]
      cases hevent : event.failure? options with
      | none =>
          rw [List.findSome?_cons, hevent] at h
          rw [reached_cons_of_none hevent, reached_cons_of_none hevent, ih h]
      | some found => rw [reached_cons_of_some hevent, reached_cons_of_some hevent]

end Listing

/-- Without a failure the decoder is asked at each visit. -/
theorem calls_eq (h : ∀ visit ∈ rom.allVisits decoder, visit.failure? options = none) :
    Listing.calls options (rom.events decoder) =
      (rom.allVisits decoder).filterMap Visit.call? := by
  rw [Listing.calls, Listing.reached_eq_self (failure?_of_mem_events h), rom.filterMap_call?_events]

namespace Visit

variable {visit : Visit}

theorem failure?_of_refusal?_eq_some {error : DecodeError}
    (h : visit.refusal? options.policy = some error) :
    visit.failure? options = some (.undefined error) := by
  rw [failure?, h]

theorem failure?_of_refusal?_eq_none (h : visit.refusal? options.policy = none) :
    visit.failure? options =
      if Line.padding options.width visit.instruction.text visit.address ≤ Line.maxPadding then none
      else some .tooWide := by
  rw [failure?, h]

theorem failure?_eq_tooWide (h : visit.failure? options = some .tooWide) :
    Line.maxPadding < Line.padding options.width visit.instruction.text visit.address := by
  cases hrefusal : visit.refusal? options.policy with
  | some error =>
      rw [failure?_of_refusal?_eq_some hrefusal] at h
      cases h
  | none =>
      rw [failure?_of_refusal?_eq_none hrefusal] at h
      by_contra hle
      rw [if_pos (Nat.not_lt.mp hle)] at h
      contradiction

/-- The lenient policy puts up with every error. -/
theorem refusal?_lenient (visit : Visit) : visit.refusal? .lenient = none := by
  unfold refusal?
  split <;> rfl

theorem failure?_lenient_ne_undefined (visit : Visit) (width : Nat) (error : DecodeError) :
    visit.failure? { policy := .lenient, width := width } ≠ some (.undefined error) := by
  rw [failure?_of_refusal?_eq_none visit.refusal?_lenient]
  split <;> simp

end Visit

/-- Of visits that do not make too wide a line before, the first one that fails is the first one that is
refused, whatever the width. -/
theorem findSome?_failure?_of_ne_tooWide {visits : List Visit}
    (h : visits.findSome? (Visit.failure? options) ≠ some .tooWide) :
    visits.findSome? (Visit.failure? options) =
      (visits.findSome? (Visit.refusal? options.policy)).map .undefined := by
  induction visits with
  | nil => rfl
  | cons visit visits ih =>
      rw [List.findSome?_cons] at h
      rw [List.findSome?_cons, List.findSome?_cons]
      cases hrefusal : visit.refusal? options.policy with
      | some error =>
          rw [Visit.failure?_of_refusal?_eq_some hrefusal]
          rfl
      | none =>
          by_cases hpadding :
              Line.padding options.width visit.instruction.text visit.address ≤ Line.maxPadding
          · rw [Visit.failure?_of_refusal?_eq_none hrefusal, if_pos hpadding] at h ⊢
            exact ih h
          · rw [Visit.failure?_of_refusal?_eq_none hrefusal, if_neg hpadding] at h
            exact absurd rfl h

/-- A run that makes no line too wide tells the first error that it refuses. -/
theorem disassembleWith_of_refused {error : DecodeError}
    (h : disassembleWith decoder options rom ≠ .error .tooWide)
    (hrefusal : (rom.allVisits decoder).findSome? (Visit.refusal? options.policy) = some error) :
    disassembleWith decoder options rom = .error (.undefined error) := by
  rw [disassembleWith_eq_error_iff,
    findSome?_failure?_of_ne_tooWide (mt disassembleWith_eq_error_iff.mpr h), hrefusal]
  rfl

/-- A run that makes no line too wide shows all lines, unless it refuses an error. -/
theorem disassembleWith_of_not_refused
    (h : disassembleWith decoder options rom ≠ .error .tooWide)
    (hrefusal : (rom.allVisits decoder).findSome? (Visit.refusal? options.policy) = none) :
    disassembleWith decoder options rom =
      .ok ("\n".intercalate (rom.lines decoder options.width)) := by
  have hfailure := findSome?_failure?_of_ne_tooWide (mt disassembleWith_eq_error_iff.mpr h)
  rw [hrefusal] at hfailure
  exact disassembleWith_eq_ok_iff.mpr ⟨List.findSome?_eq_none_iff.mp hfailure, rfl⟩

/-- A lenient listing fails for no other reason than a line that is too wide. -/
theorem lenient_eq_ok {width : Nat}
    (h : disassembleWith decoder { policy := .lenient, width := width } rom ≠ .error .tooWide) :
    ∃ listing, disassembleWith decoder { policy := .lenient, width := width } rom = .ok listing := by
  cases hrun : disassembleWith decoder { policy := .lenient, width := width } rom with
  | ok listing => exact ⟨listing, rfl⟩
  | error failure =>
      cases failure with
      | tooWide => exact absurd hrun h
      | undefined error =>
          obtain ⟨visit, _, hvisit⟩ :=
            List.exists_of_findSome?_eq_some (disassembleWith_eq_error_iff.mp hrun)
          exact absurd hvisit (visit.failure?_lenient_ne_undefined width error)

/-- No line of a listing asks for too many blanks if its column does not. -/
theorem ne_tooWide_of_width_le (h : options.width ≤ Line.maxPadding) :
    disassembleWith decoder options rom ≠ .error .tooWide := by
  intro hrun
  obtain ⟨visit, _, hvisit⟩ :=
    List.exists_of_findSome?_eq_some (disassembleWith_eq_error_iff.mp hrun)
  have hpadding : Line.padding options.width visit.instruction.text visit.address ≤ Line.maxPadding :=
    Nat.le_trans (Nat.sub_le _ _) h
  exact Nat.not_lt.mpr hpadding (Visit.failure?_eq_tooWide hvisit)

end RomListing
