import RomListing.Proofs.Listing

/-! A run as one loop. The listing is defined by the events of an image, and the options only decide how
far they go. Here the options are at hand from the start: the loop goes from bank to bank and from offset
to offset, makes a line and tells and asks what there is at each, and ends early at the first failure. It
ends as the listing does, and on the way it has told and asked the same. -/

namespace RomListing

/-- What a run has done so far: the lines made, the log entries told, the windows put to the decoder. -/
structure Progress where
  lines : List String := []
  log : List Log.Entry := []
  calls : List Window := []

/-- Steps of a run. After a failure no further step is made, and what was done before stays. -/
abbrev Run := ExceptT Failure (StateM Progress)

namespace Run

/-- How steps end, made after what has been done already. -/
def outcome {α : Type} (step : Run α) (progress : Progress) : Except Failure α × Progress :=
  (step.run.run progress).run

def emit (line : String) : Run Unit :=
  modify fun progress => { progress with lines := progress.lines ++ [line] }

def tell (level : Log.Level) (message : String) : Run Unit :=
  modify fun progress =>
    { progress with log := progress.log ++ [⟨level, "gbdasm::disasm", message⟩] }

def ask (decoder : Decoder) (window : Window) : Run (Except DecodeError Instruction) := do
  modify fun progress => { progress with calls := progress.calls ++ [window] }
  return decoder window

variable (decoder : Decoder) (options : Options) (rom : Rom)

/-- What is shown in place of an error, unless the policy refuses it. -/
def placeholderFor (error : DecodeError) : Run Instruction := do
  if error.fault = .undefinedOpcode ∧ options.policy = .strict then
    throw (.undefined error)
  tell .warn error.message
  return error.placeholder

/-- What is shown at an offset of a bank. -/
def instructionAt (bank cursor : Nat) : Run Instruction := do
  if rom.isHeaderByte (UInt32.ofNat cursor) then
    return .data (rom.bytes.getD cursor 0) ""
  match ← ask decoder (rom.windowAt bank cursor) with
  | .ok instruction => return instruction
  | .error error => placeholderFor options error

/-- Makes the line of an offset, and says how many bytes it covers. -/
def lineAt (bank cursor : Nat) : Run Nat := do
  let instruction ← instructionAt decoder options rom bank cursor
  match Line.format? options.width instruction.text (UInt32.ofNat cursor) with
  | none => throw .tooWide
  | some line => emit line
  return instruction.length

/-- Makes the lines from an offset up to the end of the bank. -/
def linesFrom (bank cursor : Nat) : Run Unit := do
  if cursor < (rom.bankRange bank).stop then
    let length ← lineAt decoder options rom bank cursor
    linesFrom bank (cursor + max length 1)
termination_by (rom.bankRange bank).stop - cursor

def openBank (bank : Nat) : Run Unit := do
  let span := rom.bankRange bank
  tell .debug ("bank " ++ Hex.padded 2 bank ++ ": " ++ Hex.literal 6 span.start ++ ".." ++
    Hex.literal 6 span.stop)
  emit (Line.sectionMarker bank)

def bankLines (bank : Nat) : Run Unit := do
  openBank rom bank
  linesFrom decoder options rom bank (rom.bankRange bank).start

def warnOfTrailing : Run Unit := do
  if 0 < rom.trailingBytes then
    tell .warn (toString rom.trailingBytes ++ " bytes past the last whole bank are not disassembled")

def allLines : Run Unit := do
  warnOfTrailing rom
  (List.range rom.bankCount).forM (bankLines decoder options rom)

def listing : Run String := do
  allLines decoder options rom
  return "\n".intercalate (← get).lines

end Run

/-- A run from its start: how it ends, what it has told, and what it has asked. -/
def disassembleLoop (decoder : Decoder) (options : Options) (rom : Rom) :
    Except Failure String × List Log.Entry × List Window :=
  let (result, progress) := (Run.listing decoder options rom).outcome {}
  (result, progress.log, progress.calls)

namespace Run

variable {α β : Type} {progress : Progress}

@[simp] theorem outcome_pure (value : α) :
    (pure value : Run α).outcome progress = (.ok value, progress) := rfl

@[simp] theorem outcome_throw (failure : Failure) :
    (throw failure : Run α).outcome progress = (.error failure, progress) := rfl

@[simp] theorem outcome_bind (first : Run α) (next : α → Run β) :
    (first >>= next).outcome progress =
      match first.outcome progress with
      | (.ok value, after) => (next value).outcome after
      | (.error failure, after) => (.error failure, after) := by
  unfold outcome
  rw [ExceptT.run_bind, StateT.run_bind, Id.run_bind]
  rcases (first.run.run progress).run with ⟨failure | value, after⟩ <;> rfl

@[simp] theorem outcome_emit (line : String) :
    (emit line).outcome progress = (.ok (), { progress with lines := progress.lines ++ [line] }) :=
  rfl

@[simp] theorem outcome_tell (level : Log.Level) (message : String) :
    (tell level message).outcome progress =
      (.ok (), { progress with log := progress.log ++ [⟨level, "gbdasm::disasm", message⟩] }) := rfl

@[simp] theorem outcome_ask (decoder : Decoder) (window : Window) :
    (ask decoder window).outcome progress =
      (.ok (decoder window), { progress with calls := progress.calls ++ [window] }) := rfl

end Run

/-- What has been done after events have been played, up to the first one that fails. -/
def Progress.after (options : Options) (progress : Progress) (events : List Event) : Progress where
  lines := progress.lines ++
    (events.takeWhile fun event => (event.failure? options).isNone).filterMap
      (Event.line? options.width)
  log := progress.log ++ Listing.log options events
  calls := progress.calls ++ Listing.calls options events

namespace Progress

variable {options : Options} {progress : Progress} {event : Event} {events more : List Event}

/-- An event that fails makes no line, but it is told and it asks. -/
theorem after_of_some {failure : Failure} (h : event.failure? options = some failure) :
    progress.after options [event] =
      { progress with
        log := progress.log ++ (event.entry? options.policy).toList
        calls := progress.calls ++ event.call?.toList } := by
  simp only [after, Listing.log, Listing.calls, Listing.reached_cons_of_some h]
  cases hentry : event.entry? options.policy <;> cases hcall : event.call? <;>
    simp [h, hentry, hcall]

theorem after_of_none (h : event.failure? options = none) :
    progress.after options [event] =
      { lines := progress.lines ++ (event.line? options.width).toList
        log := progress.log ++ (event.entry? options.policy).toList
        calls := progress.calls ++ event.call?.toList } := by
  simp only [after, Listing.log, Listing.calls, Listing.reached_cons_of_none h]
  cases hline : event.line? options.width <;> cases hentry : event.entry? options.policy <;>
    cases hcall : event.call? <;> simp [h, hline, hentry, hcall, Listing.reached]

theorem after_append_of_none (h : ∀ event ∈ events, event.failure? options = none) :
    (progress.after options events).after options more =
      progress.after options (events ++ more) := by
  have hgoesOn := Listing.isNone_of_failure?_eq_none h
  simp only [after, Listing.log, Listing.calls, Listing.reached_append_of_none h,
    Listing.reached_eq_self h, List.filterMap_append, List.append_assoc,
    List.takeWhile_append_of_pos hgoesOn, List.takeWhile_eq_self_iff.mpr hgoesOn]

theorem after_append_of_some {failure : Failure}
    (h : events.findSome? (Event.failure? options) = some failure) :
    progress.after options (events ++ more) = progress.after options events := by
  obtain ⟨event, hmem, hevent⟩ := List.exists_of_findSome?_eq_some h
  have hstops : (events.takeWhile fun event => (event.failure? options).isNone).length ≠
      events.length := by
    intro hlength
    have hall := List.takeWhile_eq_self_iff.mp
      ((List.takeWhile_prefix _).eq_of_length hlength) event hmem
    simp [hevent] at hall
  simp only [after, Listing.log, Listing.calls, Listing.reached_append_of_some h,
    List.takeWhile_append, if_neg hstops]

end Progress

/-- A step plays events: it fails with the first failure among them, or else ends with a value, and it
does what the events ask for. -/
def Plays {α : Type} (options : Options) (step : Run α) (value : α) (events : List Event) : Prop :=
  ∀ progress : Progress, step.outcome progress =
    (match events.findSome? (Event.failure? options) with
      | some failure => .error failure
      | none => .ok value, progress.after options events)

namespace Plays

variable {α β : Type} {options : Options} {first : Run α} {next : α → Run β} {value : α} {result : β}
  {events more : List Event}

theorem pure (value : α) : Plays options (Pure.pure value : Run α) value [] := by
  intro progress
  simp [Run.outcome, Progress.after, Listing.log, Listing.calls, Listing.reached]

theorem bind (hfirst : Plays options first value events)
    (hnext : Plays options (next value) result more) :
    Plays options (first >>= next) result (events ++ more) := by
  intro progress
  rw [Run.outcome_bind, hfirst progress, List.findSome?_append]
  cases hfailure : events.findSome? (Event.failure? options) with
  | none =>
      rw [← Progress.after_append_of_none (List.findSome?_eq_none_iff.mp hfailure)]
      exact hnext _
  | some failure => rw [Progress.after_append_of_some hfailure, Option.some_or]

theorem forM {step : β → Run Unit} {events : β → List Event}
    (h : ∀ index, Plays options (step index) () (events index)) (indices : List β) :
    Plays options (indices.forM step) () (indices.flatMap events) := by
  induction indices with
  | nil => exact pure ()
  | cons index indices ih => exact (h index).bind ih

end Plays

namespace Run

variable {decoder : Decoder} {options : Options} {rom : Rom} {bank cursor : Nat} {progress : Progress}

theorem refuses_iff {policy : Policy} {error : DecodeError} :
    policy.refuses error = true ↔ error.fault = .undefinedOpcode ∧ policy = .strict := by
  cases policy <;> simp [Policy.refuses]

theorem outcome_placeholderFor (error : DecodeError) :
    (placeholderFor options error).outcome progress =
      if options.policy.refuses error then (.error (.undefined error), progress)
      else (.ok error.placeholder,
        { progress with log := progress.log ++ [⟨.warn, "gbdasm::disasm", error.message⟩] }) := by
  unfold placeholderFor
  simp only [← refuses_iff]
  split <;> simp only [outcome_bind, outcome_throw, outcome_tell, outcome_pure]

/-- A step at an offset is stopped by what the policy refuses there, and tells and asks what the visit
does. -/
theorem outcome_instructionAt :
    (instructionAt decoder options rom bank cursor).outcome progress =
      (match (rom.visitAt decoder bank cursor).refusal? options.policy with
        | some error => .error (.undefined error)
        | none => .ok (rom.visitAt decoder bank cursor).instruction,
      { progress with
        log := progress.log ++
          (Event.entry? options.policy (.visited (rom.visitAt decoder bank cursor))).toList
        calls := progress.calls ++ (rom.visitAt decoder bank cursor).call?.toList }) := by
  unfold instructionAt Visit.refusal? Visit.instruction Event.entry? Visit.warning? Visit.call?
  simp only [Rom.item_visitAt, Rom.window_visitAt]
  by_cases hheader : rom.isHeaderByte (UInt32.ofNat cursor)
  · simp only [if_pos hheader, outcome_pure]
    simp [Item.isHeader, Item.instruction]
  · simp only [if_neg hheader, outcome_bind, outcome_ask]
    cases decoder (rom.windowAt bank cursor) with
    | ok instruction => simp [Item.ofResult, Item.isHeader, Item.instruction]
    | error error =>
        simp only [Item.ofResult, outcome_placeholderFor]
        split <;> simp [Item.isHeader, Item.instruction, Event.logSource]

theorem plays_lineAt :
    Plays options (lineAt decoder options rom bank cursor) (rom.stride decoder bank cursor)
      [.visited (rom.visitAt decoder bank cursor)] := by
  intro progress
  unfold lineAt
  rw [outcome_bind, outcome_instructionAt, ← rom.length_visitAt decoder bank cursor,
    ← rom.address_visitAt decoder bank cursor, List.findSome?_singleton]
  generalize rom.visitAt decoder bank cursor = visit
  cases hrefusal : visit.refusal? options.policy with
  | some error =>
      have hfailure : Event.failure? options (.visited visit) = some (.undefined error) :=
        Visit.failure?_of_refusal?_eq_some hrefusal
      rw [Progress.after_of_some hfailure, hfailure]
      rfl
  | none =>
      by_cases hpadding :
          Line.padding options.width visit.instruction.text visit.address ≤ Line.maxPadding
      · have hfailure : Event.failure? options (.visited visit) = none :=
          (Visit.failure?_of_refusal?_eq_none hrefusal).trans (if_pos hpadding)
        rw [Progress.after_of_none hfailure, hfailure]
        simp only [Line.format?, if_pos hpadding]
        rfl
      · have hfailure : Event.failure? options (.visited visit) = some .tooWide :=
          (Visit.failure?_of_refusal?_eq_none hrefusal).trans (if_neg hpadding)
        rw [Progress.after_of_some hfailure, hfailure]
        simp only [Line.format?, if_neg hpadding]
        rfl

variable (decoder options rom bank)

/-- The loop over offsets plays the visits of the walk from there. -/
theorem plays_linesFrom (cursor : Nat) :
    Plays options (linesFrom decoder options rom bank cursor) ()
      (((rom.walk decoder bank).visits 0 cursor (rom.windowAt bank cursor).bytes).map .visited) := by
  refine rom.walk_induction decoder bank (motive := fun cursor visits =>
    Plays options (linesFrom decoder options rom bank cursor) () (visits.map .visited)) ?_ ?_ cursor
  · intro cursor hle
    rw [linesFrom, if_neg (by omega)]
    exact .pure ()
  · intro cursor visits hlt ih
    rw [linesFrom, if_pos hlt]
    exact plays_lineAt.bind ih

theorem plays_openBank :
    Plays options (openBank rom bank) () [.bank bank (rom.bankRange bank)] := by
  intro progress
  rw [Progress.after_of_none rfl]
  simp [openBank, Event.line?, Event.entry?, Event.call?, Event.failure?, Event.logSource]

theorem plays_bankLines :
    Plays options (bankLines decoder options rom bank) () (rom.bankEvents decoder bank) := by
  rw [Rom.bankEvents, Rom.visits_eq_walk]
  exact (plays_openBank options rom bank).bind (plays_linesFrom decoder options rom bank _)

theorem plays_warnOfTrailing : Plays options (warnOfTrailing rom) ()
    (if rom.trailingBytes = 0 then [] else [.trailing rom.trailingBytes]) := by
  unfold warnOfTrailing
  by_cases h : rom.trailingBytes = 0
  · rw [if_pos h, if_neg (by omega)]
    exact .pure ()
  · intro progress
    rw [if_neg h, if_pos (by omega), Progress.after_of_none rfl]
    simp [Event.line?, Event.entry?, Event.call?, Event.failure?, Event.logSource]

theorem plays_allLines : Plays options (allLines decoder options rom) () (rom.events decoder) :=
  (plays_warnOfTrailing options rom).bind (.forM (plays_bankLines decoder options rom) _)

end Run

/-- **A run is one loop.** The loop over banks and offsets, with the options at hand and an end at the
first failure, makes the listing of the events, tells what its log tells and asks what it asks. -/
theorem disassembleLoop_eq (decoder : Decoder) (options : Options) (rom : Rom) :
    disassembleLoop decoder options rom =
      (disassembleWith decoder options rom, Listing.log options (rom.events decoder),
        Listing.calls options (rom.events decoder)) := by
  have hplays := Run.plays_allLines decoder options rom {}
  unfold disassembleLoop Run.listing
  rw [Run.outcome_bind, hplays, disassembleWith, Listing.text]
  cases hfailure : (rom.events decoder).findSome? (Event.failure? options) with
  | some failure => rfl
  | none =>
      have hlines : (Progress.after options {} (rom.events decoder)).lines =
          (rom.events decoder).filterMap (Event.line? options.width) := by
        rw [Progress.after, List.takeWhile_eq_self_iff.mpr
          (Listing.isNone_of_failure?_eq_none (List.findSome?_eq_none_iff.mp hfailure))]
        rfl
      rw [← hlines]
      rfl

end RomListing
