import RomListing.Proofs.FileSystem
import RomListing.Proofs.Listing

/-! What a run of the command line program leaves behind. The listing is made as a whole before a byte
of it is written, so a run that fails leaves no trace but its messages, and a run that succeeds puts the
listing in one place. Dump and log only add to the messages. -/

namespace RomListing

open Program

variable {State File : Type}

/-- A run of the program on a file system, with the files it leaves. -/
def FileSystem.run (system : FileSystem State File) (verbosity : Log.Verbosity)
    (arguments : CommandLine.Arguments) (state : State) : Outcome × State :=
  (execute system.files verbosity arguments).run state

/-- The listing of what a path holds, as the arguments ask for it. -/
def FileSystem.Lists (system : FileSystem State File) (arguments : CommandLine.Arguments)
    (state : State) (listing : String) : Prop :=
  ∃ bytes, system.read state arguments.rom = .ok bytes ∧
    disassemble { policy := if arguments.strict then .strict else .lenient, width := arguments.width }
      { bytes := bytes, hasHeader := !arguments.noHeader } = .ok listing

/-- The reasons why a run fails, with the code that it ends with. -/
inductive Fails (system : FileSystem State File) (arguments : CommandLine.Arguments) (state : State) :
    UInt32 → Prop
  | unreadable {error : FileError} : system.read state arguments.rom = .error error →
      Fails system arguments state 1
  /-- An undefined opcode under the strict policy. -/
  | refused {bytes : Array UInt8} {error : DecodeError} : arguments.strict = true →
      system.read state arguments.rom = .ok bytes →
      disassemble { policy := .strict, width := arguments.width }
        { bytes := bytes, hasHeader := !arguments.noHeader } = .error (.undefined error) →
      Fails system arguments state 1
  /-- A line that would take too many blanks. -/
  | crashed {bytes : Array UInt8} : system.read state arguments.rom = .ok bytes →
      disassemble { policy := if arguments.strict then .strict else .lenient, width := arguments.width }
        { bytes := bytes, hasHeader := !arguments.noHeader } = .error .tooWide →
      Fails system arguments state 101
  | unwritable {listing path : String} {error : FileError} : system.Lists arguments state listing →
      arguments.output = some path →
      system.write state path (listing ++ "\n").toUTF8.data = .error error →
      Fails system arguments state 1

/-- The ways in which a run ends: the code, the standard output and the files it leaves. -/
inductive Ends (system : FileSystem State File) (arguments : CommandLine.Arguments) (state : State) :
    UInt32 → String → State → Prop
  | failed {code : UInt32} : Fails system arguments state code → Ends system arguments state code "" state
  | printed {listing : String} : system.Lists arguments state listing → arguments.output = none →
      Ends system arguments state 0 (listing ++ "\n") state
  | written {listing path : String} {after : State} : system.Lists arguments state listing →
      arguments.output = some path →
      system.write state path (listing ++ "\n").toUTF8.data = .ok after →
      Ends system arguments state 0 "" after

/-- A command line that is understood runs the program on the files of the working folder. -/
theorem Folder.runIn_eq_run {words : List String} {arguments : CommandLine.Arguments} (folder : Folder)
    (verbosity : Log.Verbosity) (h : CommandLine.parse words = .ok arguments) :
    runIn folder verbosity words = Folder.system.run verbosity arguments folder := by
  rw [runIn, Program.run, h, FileSystem.run, Folder.files_system]

variable {system : FileSystem State File} {arguments : CommandLine.Arguments} {state after : State}

theorem image_eq (arguments : CommandLine.Arguments) (bytes : Array UInt8) :
    image arguments bytes = { bytes := bytes, hasHeader := !arguments.noHeader } := by
  unfold image
  cases arguments.noHeader <;> rfl

/-- A lenient run refuses no opcode. -/
theorem strict_of_undefined {rom : Rom} {error : DecodeError}
    (h : disassemble
      { policy := if arguments.strict then .strict else .lenient, width := arguments.width } rom =
        .error (.undefined error)) : arguments.strict = true := by
  by_contra hstrict
  rw [if_neg hstrict] at h
  obtain ⟨visit, _, hvisit⟩ := List.exists_of_findSome?_eq_some (disassembleWith_eq_error_iff.mp h)
  exact visit.failure?_lenient_ne_undefined _ _ hvisit

theorem Fails.code_ne_zero {code : UInt32} (h : Fails system arguments state code) : code ≠ 0 := by
  cases h <;> decide

namespace FileSystem

variable (system state)

/-- How a run goes on once the listing is made or turned out to be impossible. -/
def conclude (told : String) (output : Option String) : Except Failure String → Outcome × State
  | .error failure => (failed told failure, state)
  | .ok listing =>
      match output with
      | none => ({ code := 0, stdout := listing ++ "\n", stderr := told }, state)
      | some path =>
          match system.write state path (listing ++ "\n").toUTF8.data with
          | .error error => ({ code := 1, stderr := told ++ fileReport "write" path error }, state)
          | .ok after => ({ code := 0, stderr := told }, after)

variable {system state}

theorem run_of_unreadable {error : FileError} (verbosity : Log.Verbosity)
    (h : system.read state arguments.rom = .error error) :
    system.run verbosity arguments state =
      ({ code := 1, stderr := fileReport "read" arguments.rom error }, state) := by
  rw [run, execute, StateT.run_bind, run_read, pure_bind, h]
  rfl

theorem run_of_read {bytes : Array UInt8} (verbosity : Log.Verbosity)
    (h : system.read state arguments.rom = .ok bytes) :
    system.run verbosity arguments state =
      system.conclude state (diagnostics verbosity arguments (image arguments bytes)) arguments.output
        (disassemble
          { policy := if arguments.strict then .strict else .lenient, width := arguments.width }
          { bytes := bytes, hasHeader := !arguments.noHeader }) := by
  rw [run, execute, StateT.run_bind, run_read, pure_bind, h, ← image_eq, ← options]
  simp only
  cases disassemble (options arguments) (image arguments bytes) with
  | error failure => rfl
  | ok listing =>
      cases houtput : arguments.output with
      | none => rfl
      | some path =>
          simp only [conclude, StateT.run_bind, run_write]
          cases system.write state path (listing ++ "\n").toUTF8.data <;> rfl

/-- A listing is what a run goes on with, whatever it tells on the way. -/
theorem run_of_lists {listing : String} (verbosity : Log.Verbosity)
    (h : system.Lists arguments state listing) :
    ∃ told, system.run verbosity arguments state =
      system.conclude state told arguments.output (.ok listing) := by
  obtain ⟨bytes, hread, hlisting⟩ := h
  rw [run_of_read verbosity hread, hlisting]
  exact ⟨_, rfl⟩

/-- Every run ends in one of the ways. -/
theorem run_ends (system : FileSystem State File) (verbosity : Log.Verbosity)
    (arguments : CommandLine.Arguments) (state : State) :
    ∃ code stdout stderr after,
      system.run verbosity arguments state = (⟨code, stdout, stderr⟩, after) ∧
        Ends system arguments state code stdout after := by
  cases hread : system.read state arguments.rom with
  | error error =>
      rw [run_of_unreadable verbosity hread]
      exact ⟨_, _, _, _, rfl, .failed (.unreadable hread)⟩
  | ok bytes =>
      rw [run_of_read verbosity hread]
      cases hlisting : disassemble
          { policy := if arguments.strict then .strict else .lenient, width := arguments.width }
          { bytes := bytes, hasHeader := !arguments.noHeader } with
      | error failure =>
          cases failure with
          | undefined error =>
              have hstrict := strict_of_undefined hlisting
              rw [if_pos hstrict] at hlisting
              exact ⟨_, _, _, _, rfl, .failed (.refused hstrict hread hlisting)⟩
          | tooWide => exact ⟨_, _, _, _, rfl, .failed (.crashed hread hlisting)⟩
      | ok listing =>
          have hlists : system.Lists arguments state listing := ⟨bytes, hread, hlisting⟩
          cases houtput : arguments.output with
          | none => exact ⟨_, _, _, _, rfl, .printed hlists houtput⟩
          | some path =>
              simp only [conclude]
              cases hwrite : system.write state path (listing ++ "\n").toUTF8.data with
              | error error => exact ⟨_, _, _, _, rfl, .failed (.unwritable hlists houtput hwrite)⟩
              | ok after => exact ⟨_, _, _, _, rfl, .written hlists houtput hwrite⟩

end FileSystem

/-- What the dump is asked to show makes no run fail. -/
theorem Fails.of_hexDump {code : UInt32} (hexDump : Option Nat)
    (h : Fails system arguments state code) :
    Fails system { arguments with hexDump := hexDump } state code := by
  cases h with
  | unreadable hread => exact .unreadable hread
  | refused hstrict hread hlisting => exact .refused hstrict hread hlisting
  | crashed hread hlisting => exact .crashed hread hlisting
  | unwritable hlists houtput hwrite => exact .unwritable hlists houtput hwrite

namespace Ends

variable {code : UInt32} {stdout : String}

/-- Files and arguments settle how a run ends, whatever the log shows. -/
theorem run_eq (h : Ends system arguments state code stdout after) (verbosity : Log.Verbosity) :
    ∃ stderr, system.run verbosity arguments state = (⟨code, stdout, stderr⟩, after) := by
  cases h with
  | failed hfails =>
      cases hfails with
      | unreadable hread =>
          rw [FileSystem.run_of_unreadable verbosity hread]
          exact ⟨_, rfl⟩
      | refused hstrict hread hlisting =>
          rw [FileSystem.run_of_read verbosity hread, if_pos hstrict, hlisting]
          exact ⟨_, rfl⟩
      | crashed hread hlisting =>
          rw [FileSystem.run_of_read verbosity hread, hlisting]
          exact ⟨_, rfl⟩
      | unwritable hlists houtput hwrite =>
          obtain ⟨told, hrun⟩ := FileSystem.run_of_lists verbosity hlists
          rw [hrun, houtput]
          simp only [FileSystem.conclude, hwrite]
          exact ⟨_, rfl⟩
  | printed hlists houtput =>
      obtain ⟨told, hrun⟩ := FileSystem.run_of_lists verbosity hlists
      rw [hrun, houtput]
      exact ⟨_, rfl⟩
  | written hlists houtput hwrite =>
      obtain ⟨told, hrun⟩ := FileSystem.run_of_lists verbosity hlists
      rw [hrun, houtput]
      simp only [FileSystem.conclude, hwrite]
      exact ⟨_, rfl⟩

theorem of_hexDump (hexDump : Option Nat) (h : Ends system arguments state code stdout after) :
    Ends system { arguments with hexDump := hexDump } state code stdout after := by
  cases h with
  | failed hfails => exact .failed (hfails.of_hexDump hexDump)
  | printed hlists houtput => exact .printed hlists houtput
  | written hlists houtput hwrite => exact .written hlists houtput hwrite

/-- A run has one way to end, so its code tells whether it fails, and for which sort of reason. -/
theorem fails_iff {reason : UInt32} (h : Ends system arguments state code stdout after) :
    Fails system arguments state reason ↔ code = reason ∧ code ≠ 0 := by
  constructor
  · intro hfails
    obtain ⟨_, hrun⟩ := h.run_eq .off
    obtain ⟨_, hother⟩ := (Ends.failed hfails).run_eq .off
    rw [hrun, Prod.mk.injEq, Outcome.mk.injEq] at hother
    obtain ⟨⟨rfl, _⟩, _⟩ := hother
    exact ⟨rfl, hfails.code_ne_zero⟩
  · rintro ⟨rfl, hcode⟩
    cases h with
    | failed hfails => exact hfails
    | printed _ _ | written _ _ _ => exact absurd rfl hcode

end Ends

/-- **All or nothing.** A run that fails, for one of four reasons, prints nothing and leaves all files as
they were. One that succeeds puts the listing of the image that was read either on the standard output or
into the output file, and nothing anywhere else. Dump and log change the standard error only. -/
theorem run_is_all_or_nothing (system : FileSystem State File) (verbosity : Log.Verbosity)
    (arguments : CommandLine.Arguments) (state : State) :
    ∃ code stdout stderr after,
      system.run verbosity arguments state = (⟨code, stdout, stderr⟩, after) ∧
        (∀ words, CommandLine.parse words = .ok arguments →
          (Program.run system.files verbosity words).run state = (⟨code, stdout, stderr⟩, after)) ∧
        (∀ reason, Fails system arguments state reason ↔ code = reason ∧ code ≠ 0) ∧
        (code ≠ 0 → stdout = "" ∧ after = state) ∧
        (code = 0 → ∃ bytes listing, system.read state arguments.rom = .ok bytes ∧
          (system.IsPlain state arguments.rom → ∃ file,
            system.file? state arguments.rom = some file ∧
            system.contents? state file = some bytes) ∧
          disassemble
            { policy := if arguments.strict then .strict else .lenient, width := arguments.width }
            { bytes := bytes, hasHeader := !arguments.noHeader } = .ok listing ∧
          (arguments.output = none ∧ stdout = listing ++ "\n" ∧ after = state ∨
            ∃ path, arguments.output = some path ∧ stdout = "" ∧
              system.write state path (listing ++ "\n").toUTF8.data = .ok after ∧
              (system.IsPlain state path → ∃ target, system.file? after path = some target ∧
                system.contents? after target = some (listing ++ "\n").toUTF8.data ∧
                (∀ other, other ≠ target →
                  system.contents? after other = system.contents? state other) ∧
                ∀ name old, system.file? state name = some old →
                  system.file? after name = some old))) ∧
        ∀ otherVerbosity hexDump, ∃ otherStderr,
          system.run otherVerbosity { arguments with hexDump := hexDump } state =
            (⟨code, stdout, otherStderr⟩, after) := by
  obtain ⟨code, stdout, stderr, after, hrun, hends⟩ := system.run_ends verbosity arguments state
  refine ⟨code, stdout, stderr, after, hrun, ?_, fun _ => hends.fails_iff, ?_, ?_, ?_⟩
  · intro words hwords
    rw [Program.run, hwords]
    exact hrun
  · intro hcode
    cases hends with
    | failed _ => exact ⟨rfl, rfl⟩
    | printed _ _ | written _ _ _ => exact absurd rfl hcode
  · rintro rfl
    cases hends with
    | failed hfails => exact absurd rfl hfails.code_ne_zero
    | printed hlists houtput =>
        obtain ⟨bytes, hread, hlisting⟩ := hlists
        exact ⟨bytes, _, hread, (system.file_of_read · hread), hlisting, .inl ⟨houtput, rfl, rfl⟩⟩
    | @written listing path _ hlists houtput hwrite =>
        obtain ⟨bytes, hread, hlisting⟩ := hlists
        refine ⟨bytes, listing, hread, (system.file_of_read · hread), hlisting,
          .inr ⟨path, houtput, rfl, hwrite, fun hplain => ?_⟩⟩
        obtain ⟨target, htarget, hwritten, hothers⟩ := system.file_of_write hplain hwrite
        exact ⟨target, htarget, hwritten, hothers, fun _ _ => system.file_after_write hplain hwrite⟩
  · intro otherVerbosity hexDump
    exact (hends.of_hexDump hexDump).run_eq otherVerbosity

/-- An image just large enough for a header, with an undefined opcode in the header area. -/
def headerImage : Array UInt8 := ⟨List.replicate 0x104 0x00 ++ 0xd3 :: List.replicate 0x4b 0x00⟩

theorem refused_headerImage : disassemble { policy := .strict, width := 12 } ⟨headerImage, false⟩ =
    .error (.undefined ⟨.undefinedOpcode, 0xd3, 0x104⟩) := by
  have hrefusal : (Rom.allVisits ⟨headerImage, false⟩ decode).findSome? (Visit.refusal? .strict) =
      some ⟨.undefinedOpcode, 0xd3, 0x104⟩ := by
    rw [Rom.allVisits_eq]
    decide +kernel
  exact disassembleWith_of_refused (ne_tooWide_of_width_le (by decide)) hrefusal

theorem listed_headerImage : ∃ listing,
    disassemble { policy := .strict, width := 12 } ⟨headerImage, true⟩ = .ok listing := by
  have hrefusal : (Rom.allVisits ⟨headerImage, true⟩ decode).findSome? (Visit.refusal? .strict) =
      none := by
    rw [Rom.allVisits_eq]
    decide +kernel
  exact ⟨_, disassembleWith_of_not_refused (ne_tooWide_of_width_le (by decide)) hrefusal⟩

/-- The listing may take the place of its own image, reached by another path, and an image that is
refused stays. An opcode in the header area is refused only if the header is asked to be code. -/
theorem run_onto_its_image :
    (∃ stderr after, Folder.system.run .off ⟨"./a.gb", some "a.gb", false, 12, false, none⟩
        ⟨[("a.gb", #[0xfb])]⟩ = (⟨0, "", stderr⟩, after) ∧
      after.contents? "a.gb" = some ("SECTION \"rom0\", ROM0\nei    ;$0000" ++ "\n").toUTF8.data) ∧
    (∃ stderr,
      Folder.system.run .off ⟨"./a.gb", some "a.gb", true, 12, false, none⟩ ⟨[("a.gb", #[0xd3])]⟩ =
        (⟨1, "", stderr⟩, ⟨[("a.gb", #[0xd3])]⟩)) ∧
    (∃ stderr,
      Folder.system.run .off ⟨"a.gb", none, true, 12, true, none⟩ ⟨[("a.gb", headerImage)]⟩ =
        (⟨1, "", stderr⟩, ⟨[("a.gb", headerImage)]⟩)) ∧
    ∃ listing stderr,
      disassemble { policy := .strict, width := 12 } ⟨headerImage, true⟩ = .ok listing ∧
      Folder.system.run .off ⟨"a.gb", none, true, 12, false, none⟩ ⟨[("a.gb", headerImage)]⟩ =
        (⟨0, listing ++ "\n", stderr⟩, ⟨[("a.gb", headerImage)]⟩) := by
  refine ⟨?_, ?_, ?_, ?_⟩
  · obtain ⟨code, stdout, stderr, after, hrun, _, _, _, hsuccess, _⟩ := run_is_all_or_nothing
      Folder.system .off ⟨"./a.gb", some "a.gb", false, 12, false, none⟩ ⟨[("a.gb", #[0xfb])]⟩
    have hcode : (Folder.system.run .off ⟨"./a.gb", some "a.gb", false, 12, false, none⟩
        ⟨[("a.gb", #[0xfb])]⟩).1.code = 0 := by decide +kernel
    rw [hrun] at hcode
    obtain ⟨bytes, listing, hread, _, hlisting, hplace⟩ := hsuccess hcode
    have hbytes : Folder.read ⟨[("a.gb", #[0xfb])]⟩ "./a.gb" = .ok #[0xfb] := by decide +kernel
    cases hbytes.symm.trans hread
    have htext : disassemble { width := 12 } ⟨#[0xfb], true⟩ =
        .ok "SECTION \"rom0\", ROM0\nei    ;$0000" := by decide +kernel
    cases htext.symm.trans hlisting
    rcases hplace with ⟨hnone, _⟩ | ⟨path, hpath, rfl, _, hfiles⟩
    · cases hnone
    · cases hpath
      obtain ⟨target, htarget, hwritten, _, hkept⟩ := hfiles trivial
      cases htarget.symm.trans (hkept "a.gb" "a.gb" (by decide +kernel))
      cases hcode
      exact ⟨stderr, after, hrun, hwritten⟩
  · obtain ⟨code, stdout, stderr, after, hrun, _, hcode, hfailure, _, _⟩ := run_is_all_or_nothing
      Folder.system .off ⟨"./a.gb", some "a.gb", true, 12, false, none⟩ ⟨[("a.gb", #[0xd3])]⟩
    have hread : Folder.read ⟨[("a.gb", #[0xd3])]⟩ "./a.gb" = .ok #[0xd3] := by decide +kernel
    have hrefused : disassemble { policy := .strict, width := 12 } ⟨#[0xd3], true⟩ =
        .error (.undefined ⟨.undefinedOpcode, 0xd3, 0⟩) := by decide +kernel
    obtain ⟨rfl, hne⟩ := (hcode 1).mp (.refused rfl hread hrefused)
    obtain ⟨rfl, rfl⟩ := hfailure hne
    exact ⟨stderr, hrun⟩
  · obtain ⟨code, stdout, stderr, after, hrun, _, hcode, hfailure, _, _⟩ := run_is_all_or_nothing
      Folder.system .off ⟨"a.gb", none, true, 12, true, none⟩ ⟨[("a.gb", headerImage)]⟩
    have hread : Folder.read ⟨[("a.gb", headerImage)]⟩ "a.gb" = .ok headerImage := rfl
    obtain ⟨rfl, hne⟩ := (hcode 1).mp (.refused rfl hread refused_headerImage)
    obtain ⟨rfl, rfl⟩ := hfailure hne
    exact ⟨stderr, hrun⟩
  · obtain ⟨code, stdout, stderr, after, hrun, _, hcode, _, hsuccess, _⟩ := run_is_all_or_nothing
      Folder.system .off ⟨"a.gb", none, true, 12, false, none⟩ ⟨[("a.gb", headerImage)]⟩
    have hread : Folder.read ⟨[("a.gb", headerImage)]⟩ "a.gb" = .ok headerImage := rfl
    obtain ⟨made, hlisting⟩ := listed_headerImage
    have hzero : code = 0 := by
      by_contra hne
      cases (hcode code).mpr ⟨rfl, hne⟩ with
      | unreadable herror => cases hread.symm.trans herror
      | refused _ hbytes herror | crashed hbytes herror =>
          cases hread.symm.trans hbytes
          cases hlisting.symm.trans herror
      | unwritable _ hpath _ => cases hpath
    obtain ⟨bytes, listing, hbytes, _, hmade, ⟨_, rfl, rfl⟩ | ⟨_, hpath, _⟩⟩ := hsuccess hzero
    · cases hzero
      cases hread.symm.trans hbytes
      exact ⟨listing, stderr, hmade, hrun⟩
    · cases hpath

end RomListing
