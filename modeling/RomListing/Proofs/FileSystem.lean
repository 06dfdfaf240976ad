import Mathlib.Data.List.DropRight
import RomListing.Program

/-! File systems under the program. Paths lead to files and files hold bytes; several paths may lead to
one file. A read finds what a plain file holds, and a write to one that succeeds changes this file only.
Of devices, which need not hold what is written to them, nothing is known. The working folder held in
memory is such a file system, without devices. -/

namespace RomListing

/-- Two steps succeed if the first one does and the second one does with what the first one found. -/
theorem exists_of_bind_eq_ok {ε α β : Type} {first : Except ε α} {next : α → Except ε β} {result : β}
    (h : first >>= next = .ok result) : ∃ found, first = .ok found ∧ next found = .ok result := by
  cases first with
  | error error => contradiction
  | ok found => exact ⟨found, rfl, h⟩

/-- A file system in which a write is made as a whole or not at all. -/
structure FileSystem (State File : Type) where
  read : State → String → Except FileError (Array UInt8)
  write : State → String → Array UInt8 → Except FileError State
  /-- The path leads to a plain file, or to nothing so far. -/
  IsPlain : State → String → Prop
  /-- The file that a path leads to. -/
  file? : State → String → Option File
  contents? : State → File → Option (Array UInt8)
  file_of_read : ∀ {state path bytes}, IsPlain state path → read state path = .ok bytes →
    ∃ file, file? state path = some file ∧ contents? state file = some bytes
  file_of_write : ∀ {state path bytes after}, IsPlain state path →
    write state path bytes = .ok after →
    ∃ file, file? after path = some file ∧ contents? after file = some bytes ∧
      ∀ other, other ≠ file → contents? after other = contents? state other
  file_after_write : ∀ {state path bytes after other file}, IsPlain state path →
    write state path bytes = .ok after →
    file? state other = some file → file? after other = some file

namespace FileSystem

variable {State File : Type} (system : FileSystem State File)

/-- The two operations that the program reaches files by. A write that fails leaves all as it was. -/
def files : Program.Files (StateM State) where
  read path := do return system.read (← get) path
  write path text := do
    match system.write (← get) path text.toUTF8.data with
    | .error error => return .error error
    | .ok after =>
        set after
        return .ok ()

theorem run_read (state : State) (path : String) :
    (system.files.read path).run state = pure (system.read state path, state) := rfl

theorem run_write (state : State) (path text : String) :
    (system.files.write path text).run state =
      match system.write state path text.toUTF8.data with
      | .error error => pure (.error error, state)
      | .ok after => pure (.ok (), after) := by
  simp only [files, StateT.run_bind, StateT.run_get, pure_bind]
  cases system.write state path text.toUTF8.data <;> rfl

end FileSystem

namespace Folder

variable {folder after : Folder} {path name : String} {contents bytes : Array UInt8}

/-- The place that a path leads to. -/
def resolve (folder : Folder) (path : String) : Except FileError Place := do
  let (place, parts) ← start path
  parts.foldlM folder.enter place

/-- The name of the file that a path leads to. -/
def file? (folder : Folder) (path : String) : Option String :=
  match folder.resolve path with
  | .ok (.file name) => some name
  | _ => none

theorem file?_eq_some_iff : folder.file? path = some name ↔ folder.resolve path = .ok (.file name) := by
  unfold file?
  split
  · rename_i found hfound
    rw [hfound]
    simp
  · rename_i hother
    simp only [reduceCtorEq, false_iff]
    exact hother name

theorem resolve_eq_ok {place : Place} (h : folder.resolve path = .ok place) :
    ∃ first parts, start path = .ok (first, parts) ∧ parts.foldlM folder.enter first = .ok place := by
  obtain ⟨⟨first, parts⟩, hstart, hparts⟩ := exists_of_bind_eq_ok h
  exact ⟨first, parts, hstart, hparts⟩

/-! ### Reading -/

theorem read_eq_ok (h : folder.read path = .ok bytes) :
    ∃ name, folder.file? path = some name ∧ folder.contents? name = some bytes := by
  obtain ⟨⟨first, parts⟩, hstart, hplace⟩ := exists_of_bind_eq_ok h
  obtain ⟨place, hparts, hcontents⟩ := exists_of_bind_eq_ok hplace
  split at hcontents
  · rename_i name
    have hfile : folder.resolve path = .ok (.file name) := by
      rw [resolve, hstart]
      exact hparts
    refine ⟨name, file?_eq_some_iff.mpr hfile, ?_⟩
    split at hcontents
    · rename_i found hfound
      rw [hfound, Except.ok.inj hcontents]
    · contradiction
  · contradiction

/-! ### Writing -/

theorem contents?_put_self : (folder.put name contents).contents? name = some contents := by
  rw [contents?, put, List.lookup_cons_self]

theorem contents?_put_of_ne {other : String} (h : other ≠ name) :
    (folder.put name contents).contents? other = folder.contents? other := by
  unfold contents? put
  rw [List.lookup_cons, beq_eq_false_iff_ne.mpr h]
  simp only
  induction folder.files with
  | nil => rfl
  | cons entry files ih =>
      by_cases hentry : entry.1 = name
      · rw [List.filter_cons_of_neg (by simp [hentry]), ih, List.lookup_cons,
          beq_eq_false_iff_ne.mpr (hentry ▸ h)]
      · rw [List.filter_cons_of_pos (by simpa using hentry), List.lookup_cons, List.lookup_cons, ih]

theorem isSome_contents?_put {other : String} (h : (folder.contents? other).isSome) :
    ((folder.put name contents).contents? other).isSome := by
  by_cases hother : other = name
  · rw [hother, contents?_put_self]
    rfl
  · rwa [contents?_put_of_ne hother]

/-- A further file takes no way away. -/
theorem enter_put {place next : Place} {part : String} (h : folder.enter place part = .ok next) :
    (folder.put name contents).enter place part = .ok next := by
  cases place with
  | file found => contradiction
  | outside => exact h
  | here =>
      simp only [enter] at h ⊢
      split_ifs at h with hhere hup hlong hfound
      · rwa [if_pos hhere]
      · rwa [if_neg hhere, if_pos hup]
      · rwa [if_neg hhere, if_neg hup, if_neg hlong, if_pos (isSome_contents?_put hfound)]

theorem foldlM_enter_put {place last : Place} {parts : List String}
    (h : parts.foldlM folder.enter place = .ok last) :
    parts.foldlM (folder.put name contents).enter place = .ok last := by
  induction parts generalizing place with
  | nil => exact h
  | cons part parts ih =>
      rw [List.foldlM_cons] at h ⊢
      obtain ⟨next, hnext, hrest⟩ := exists_of_bind_eq_ok h
      rw [enter_put hnext]
      exact ih hrest

theorem file?_put {other : String} (h : folder.file? path = some other) :
    (folder.put name contents).file? path = some other := by
  obtain ⟨first, parts, hstart, hparts⟩ := resolve_eq_ok (file?_eq_some_iff.mp h)
  rw [file?_eq_some_iff, resolve, hstart]
  exact foldlM_enter_put hparts

/-- A part of a path that names a file of the folder. -/
theorem enter_put_self (hplain : name ≠ "" ∧ name ≠ "." ∧ name ≠ "..")
    (hlong : name.utf8ByteSize ≤ longestName) :
    (folder.put name contents).enter .here name = .ok (.file name) := by
  unfold enter
  rw [contents?_put_self]
  simp only [if_neg (not_or.mpr ⟨hplain.1, hplain.2.1⟩), if_neg hplain.2.2, if_neg (Nat.not_lt.mpr hlong)]
  rfl

/-- A path whose last part is not empty has no empty parts behind it. -/
theorem trim_eq_self {parts : List String} (h : parts.getLast? ≠ some "") :
    (parts.reverse.dropWhile (· = "")).reverse = parts := by
  apply List.rdropWhile_eq_self_iff.mpr
  intro hne hlast
  rw [List.getLast?_eq_some_getLast hne, of_decide_eq_true hlast] at h
  exact h rfl

/-- A write that succeeds puts a file into the folder, under the last part of its path. -/
theorem write_cases (h : folder.write path bytes = .ok after) :
    ∃ first parts name, start path = .ok (first, parts ++ [name]) ∧
      parts.foldlM folder.enter first = .ok .here ∧ (name ≠ "" ∧ name ≠ "." ∧ name ≠ "..") ∧
      name.utf8ByteSize ≤ longestName ∧ after = folder.put name bytes := by
  obtain ⟨⟨first, parts⟩, hstart, hplace⟩ := exists_of_bind_eq_ok h
  obtain ⟨place, hparts, hput⟩ := exists_of_bind_eq_ok hplace
  split at hput
  · contradiction
  · contradiction
  · rename_i name hlast _
    split_ifs at hput with hplain hlong
    rw [not_or, not_or] at hplain
    obtain ⟨hhere, hup, hempty⟩ := hplain
    rw [trim_eq_self hempty] at hparts hlast
    have happend : parts.dropLast ++ [name] = parts := List.dropLast_append_getLast? name hlast
    split at hput
    · refine ⟨first, parts.dropLast, name, by rw [happend, hstart], hparts, ⟨?_, hhere, hup⟩,
        Nat.not_lt.mp hlong, (Except.ok.inj hput).symm⟩
      rintro rfl
      exact hempty hlast
    · contradiction

/-- The file that is written is the one that the path leads to afterwards. -/
theorem write_eq_ok (h : folder.write path bytes = .ok after) :
    ∃ name, after = folder.put name bytes ∧ after.file? path = some name := by
  obtain ⟨first, parts, name, hstart, hparts, hplain, hlong, rfl⟩ := write_cases h
  refine ⟨name, rfl, file?_eq_some_iff.mpr ?_⟩
  have hlast : (parts ++ [name]).foldlM (folder.put name bytes).enter first = .ok (.file name) := by
    rw [List.foldlM_append, foldlM_enter_put hparts]
    change ([name].foldlM (folder.put name bytes).enter .here) = _
    rw [List.foldlM_cons, enter_put_self hplain hlong]
    rfl
  rw [resolve, hstart]
  exact hlast

/-- The working folder as a file system whose files are told by their names. -/
def system : FileSystem Folder String where
  read := read
  write := write
  IsPlain _ _ := True
  file? := file?
  contents? := contents?
  file_of_read _ := read_eq_ok
  file_of_write _ h := by
    obtain ⟨name, rfl, hfile⟩ := write_eq_ok h
    exact ⟨name, hfile, contents?_put_self, fun other hother => contents?_put_of_ne hother⟩
  file_after_write _ h hfile := by
    obtain ⟨name, rfl, _⟩ := write_eq_ok h
    exact file?_put hfile

theorem files_system : system.files = Program.folderFiles := by
  unfold FileSystem.files Program.folderFiles
  congr 1
  funext path text
  apply StateT.ext
  intro folder
  have hwrite : system.write folder path text.toUTF8.data = folder.write path text.toUTF8.data := rfl
  simp only [StateT.run_bind, StateT.run_get, pure_bind, hwrite]
  cases folder.write path text.toUTF8.data <;> rfl

end Folder

end RomListing
