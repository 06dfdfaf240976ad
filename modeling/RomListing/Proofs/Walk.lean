import RomListing.Listing.Walk
import RomListing.Proofs.Banks

/-! The walk through a bank as a loop over offsets. The walk is defined along the bytes of the bank;
here it is shown to stop at exactly the offsets of a loop that starts at the bank's first byte, moves
on by what stands at each offset and ends at the bank's end, and what it finds at an offset is a
function of that offset alone. -/

namespace RomListing

/-- The offsets at which a loop stops on its way from `cursor` to `stop`. It moves on by the stride at
each offset, by one byte at least, and ends at the first offset that is not before `stop`. -/
inductive Strides (stride : Nat → Nat) (stop : Nat) : Nat → List Nat → Prop
  | done {cursor : Nat} : stop ≤ cursor → Strides stride stop cursor []
  | step {cursor : Nat} {rest : List Nat} : cursor < stop →
      Strides stride stop (cursor + max (stride cursor) 1) rest →
      Strides stride stop cursor (cursor :: rest)

namespace Strides

variable {stride : Nat → Nat} {stop cursor : Nat} {offsets : List Nat}

theorem bounds (h : Strides stride stop cursor offsets) :
    ∀ offset ∈ offsets, cursor ≤ offset ∧ offset < stop := by
  induction h with
  | done _ =>
      intro offset hmem
      exact absurd hmem List.not_mem_nil
  | step hlt _ ih =>
      intro offset hmem
      rcases List.mem_cons.mp hmem with rfl | hrest
      · exact ⟨Nat.le_refl _, hlt⟩
      · have := ih offset hrest
        omega

/-- The loop takes no more steps than there are bytes, since each one covers a byte at least. -/
theorem length_le (h : Strides stride stop cursor offsets) : offsets.length ≤ stop - cursor := by
  induction h with
  | done _ => exact Nat.zero_le _
  | step hlt _ ih =>
      rw [List.length_cons]
      omega

theorem pairwise_lt (h : Strides stride stop cursor offsets) : offsets.Pairwise (· < ·) := by
  induction h with
  | done _ => exact List.Pairwise.nil
  | step _ hrest ih =>
      refine List.Pairwise.cons (fun offset hmem => ?_) ih
      have := hrest.bounds offset hmem
      omega

theorem head?_eq (h : Strides stride stop cursor offsets) (hlt : cursor < stop) :
    offsets.head? = some cursor := by
  cases h with
  | done hle => omega
  | step _ _ => rfl

end Strides

namespace Walk

variable (walk : Walk)

/-- Bytes that belong to the instruction before are passed over. -/
theorem visits_skip (skip cursor : Nat) (bytes : List UInt8) :
    walk.visits skip cursor bytes = walk.visits 0 (cursor + skip) (bytes.drop skip) := by
  induction bytes generalizing skip cursor with
  | nil => simp [visits]
  | cons byte rest ih =>
      cases skip with
      | zero => rfl
      | succ skip =>
          rw [visits, ih, List.drop_succ_cons, Nat.add_right_comm, Nat.add_assoc]

theorem visits_cons (cursor : Nat) (byte : UInt8) (rest : List UInt8) :
    walk.visits 0 cursor (byte :: rest) = walk.visit cursor byte rest ::
      walk.visits 0 (cursor + (walk.visit cursor byte rest).advance)
        ((byte :: rest).drop (walk.visit cursor byte rest).advance) := by
  obtain ⟨skip, hskip⟩ : ∃ skip, (walk.visit cursor byte rest).advance = skip + 1 :=
    Nat.exists_eq_succ_of_ne_zero (by simp only [Visit.advance]; omega)
  rw [visits]
  simp only [hskip, Nat.add_sub_cancel]
  rw [visits_skip, List.drop_succ_cons, Nat.add_assoc, Nat.add_comm 1]

end Walk

namespace Rom

variable (rom : Rom) (decoder : Decoder) (bank : Nat)

/-- What a decoder may see from an offset of a bank on. -/
def windowAt (cursor : Nat) : Window :=
  ⟨(rom.bytes.extract cursor (rom.bankRange bank).stop).toList, (rom.bankRange bank).stop - cursor,
    UInt32.ofNat cursor⟩

/-- What a walk finds at an offset of a bank. -/
def visitAt (cursor : Nat) : Visit :=
  ⟨cursor, rom.windowAt bank cursor,
    if rom.isHeaderByte (UInt32.ofNat cursor) then .header (rom.bytes.getD cursor 0)
    else .ofResult (decoder (rom.windowAt bank cursor))⟩

/-- How far the decoder lets a walk move on from an offset. Header bytes and bytes that it turns down
stand for themselves. -/
def stride (cursor : Nat) : Nat :=
  if rom.isHeaderByte (UInt32.ofNat cursor) then 1
  else
    match decoder (rom.windowAt bank cursor) with
    | .ok instruction => instruction.length
    | .error _ => 1

/-- The offsets at which the walk through a bank stops. -/
def cursors : List Nat := (rom.visits decoder bank).map Visit.cursor

theorem length_visitAt (cursor : Nat) :
    (rom.visitAt decoder bank cursor).instruction.length = rom.stride decoder bank cursor := by
  unfold visitAt stride Visit.instruction
  split
  · rfl
  · cases decoder (rom.windowAt bank cursor) <;> rfl

theorem bytes_windowAt (cursor : Nat) : (rom.windowAt bank cursor).bytes =
    (rom.bytes.extract cursor (rom.bankRange bank).stop).toList := by
  -- The fields are variables here, or else the extract would be evaluated to compare it with itself.
  have hfield : ∀ bytes remaining address, (Window.mk bytes remaining address).bytes = bytes :=
    fun _ _ _ => rfl
  exact hfield _ _ _

theorem address_visitAt (cursor : Nat) :
    (rom.visitAt decoder bank cursor).address = UInt32.ofNat cursor := rfl

theorem window_visitAt (cursor : Nat) :
    (rom.visitAt decoder bank cursor).window = rom.windowAt bank cursor := rfl

theorem item_visitAt (cursor : Nat) : (rom.visitAt decoder bank cursor).item =
    if rom.isHeaderByte (UInt32.ofNat cursor) then .header (rom.bytes.getD cursor 0)
    else .ofResult (decoder (rom.windowAt bank cursor)) := rfl

theorem bytes_windowAt_drop (cursor count : Nat) :
    (rom.windowAt bank cursor).bytes.drop count = (rom.windowAt bank (cursor + count)).bytes := by
  simp only [bytes_windowAt, Array.toList_extract, List.extract_eq_take_drop, List.drop_take,
    List.drop_drop, Nat.sub_sub]

theorem length_bytes_windowAt (cursor : Nat) :
    (rom.windowAt bank cursor).bytes.length = (rom.windowAt bank cursor).remaining := by
  have hstop : (rom.bankRange bank).stop ≤ rom.bytes.size := rom.bankRange_stop_le_size bank
  rw [bytes_windowAt, Array.length_toList, Array.size_extract, Nat.min_eq_left hstop, windowAt]

theorem getElem?_bytes {cursor : Nat} (h : cursor < (rom.bankRange bank).stop) :
    rom.bytes[cursor]? = some (rom.bytes.getD cursor 0) := by
  have hsize : cursor < rom.bytes.size := Nat.lt_of_lt_of_le h (rom.bankRange_stop_le_size bank)
  rw [Array.getD_eq_getD_getElem?, Array.getElem?_eq_getElem hsize]
  rfl

theorem bytes_windowAt_of_lt {cursor : Nat} (h : cursor < (rom.bankRange bank).stop) :
    (rom.windowAt bank cursor).bytes =
      rom.bytes.getD cursor 0 :: (rom.windowAt bank (cursor + 1)).bytes := by
  have hsize : cursor < rom.bytes.size := Nat.lt_of_lt_of_le h (rom.bankRange_stop_le_size bank)
  have hcount : (rom.bankRange bank).stop - cursor = (rom.bankRange bank).stop - (cursor + 1) + 1 := by
    omega
  simp only [bytes_windowAt, Array.toList_extract, List.extract_eq_take_drop]
  rw [List.drop_eq_getElem_cons (by simpa using hsize), hcount, List.take_succ_cons,
    Array.getElem_toList, Array.getD_eq_getD_getElem?, Array.getElem?_eq_getElem hsize]
  rfl

/-- A decoder may always read the byte it is asked about. -/
theorem readable_windowAt {cursor : Nat} (h : cursor < (rom.bankRange bank).stop) :
    ∃ rest, (rom.windowAt bank cursor).readable = rom.bytes.getD cursor 0 :: rest := by
  have hcount : ∃ count, min (rom.windowAt bank cursor).remaining 3 = count + 1 := by
    refine Nat.exists_eq_succ_of_ne_zero ?_
    simp only [windowAt]
    omega
  obtain ⟨count, hcount⟩ := hcount
  refine ⟨(rom.windowAt bank (cursor + 1)).bytes.take count, ?_⟩
  rw [Window.readable, hcount, rom.bytes_windowAt_of_lt bank h, List.take_succ_cons]

/-- The circumstances of the walk through a bank. -/
def walk : Walk := ⟨rom.isHeaderByte, decoder, (rom.bankRange bank).stop⟩

theorem bankBytes_eq : rom.bankBytes bank =
    (rom.bytes.toList.drop (rom.bankRange bank).start).take
      ((rom.bankRange bank).stop - (rom.bankRange bank).start) := by
  rw [bankBytes, Array.toList_extract, List.extract_eq_take_drop]

theorem visits_eq_walk : rom.visits decoder bank =
    (rom.walk decoder bank).visits 0 (rom.bankRange bank).start
      (rom.windowAt bank (rom.bankRange bank).start).bytes := by
  rw [bytes_windowAt, visits, walk, bankBytes]

theorem walk_visit {cursor : Nat} (h : cursor < (rom.bankRange bank).stop) :
    (rom.walk decoder bank).visit cursor (rom.bytes.getD cursor 0)
      (rom.windowAt bank (cursor + 1)).bytes = rom.visitAt decoder bank cursor := by
  have hwindow : (rom.walk decoder bank).window cursor
      (rom.bytes.getD cursor 0 :: (rom.windowAt bank (cursor + 1)).bytes) =
      rom.windowAt bank cursor := by
    rw [← rom.bytes_windowAt_of_lt bank h, Walk.window, bytes_windowAt, windowAt, walk]
  rw [Walk.visit, hwindow, visitAt]
  rfl

/-- One step of the walk: it stops at the offset and goes on behind what stands there. -/
theorem walk_visits_step {cursor : Nat} (h : cursor < (rom.bankRange bank).stop) :
    (rom.walk decoder bank).visits 0 cursor (rom.windowAt bank cursor).bytes =
      rom.visitAt decoder bank cursor ::
        (rom.walk decoder bank).visits 0 (cursor + max (rom.stride decoder bank cursor) 1)
          (rom.windowAt bank (cursor + max (rom.stride decoder bank cursor) 1)).bytes := by
  rw [rom.bytes_windowAt_of_lt bank h, Walk.visits_cons, rom.walk_visit decoder bank h,
    ← rom.bytes_windowAt_of_lt bank h, bytes_windowAt_drop, Visit.advance, length_visitAt]

theorem walk_visits_done {cursor : Nat} (h : (rom.bankRange bank).stop ≤ cursor) :
    (rom.walk decoder bank).visits 0 cursor (rom.windowAt bank cursor).bytes = [] := by
  have hnil : (rom.windowAt bank cursor).bytes = [] := by
    rw [← List.length_eq_zero_iff, length_bytes_windowAt]
    exact Nat.sub_eq_zero_of_le h
  rw [hnil, Walk.visits]

/-- What holds at the end of a bank, and of an offset if it holds behind what stands there, holds of
the walk from any offset. -/
theorem walk_induction {motive : Nat → List Visit → Prop}
    (done : ∀ cursor, (rom.bankRange bank).stop ≤ cursor → motive cursor [])
    (step : ∀ cursor visits, cursor < (rom.bankRange bank).stop →
      motive (cursor + max (rom.stride decoder bank cursor) 1) visits →
      motive cursor (rom.visitAt decoder bank cursor :: visits)) (cursor : Nat) :
    motive cursor
      ((rom.walk decoder bank).visits 0 cursor (rom.windowAt bank cursor).bytes) := by
  -- The distance to the end of the bank shrinks with every step.
  induction hdistance : (rom.bankRange bank).stop - cursor using Nat.strongRecOn
    generalizing cursor with
  | ind distance ih =>
      by_cases h : cursor < (rom.bankRange bank).stop
      · rw [rom.walk_visits_step decoder bank h]
        exact step cursor _ h (ih _ (by omega) _ rfl)
      · rw [rom.walk_visits_done decoder bank (by omega)]
        exact done cursor (by omega)

/-- The walk stops where the loop over offsets does. -/
theorem strides_cursors :
    Strides (rom.stride decoder bank) (rom.bankRange bank).stop (rom.bankRange bank).start
      (rom.cursors decoder bank) := by
  rw [cursors, visits_eq_walk]
  refine rom.walk_induction decoder bank
    (motive := fun cursor visits => Strides (rom.stride decoder bank) (rom.bankRange bank).stop
      cursor (visits.map Visit.cursor)) ?_ ?_ _
  · intro cursor hle
    exact .done hle
  · intro cursor visits hlt ih
    exact .step hlt ih

/-- What a walk finds depends on the offset, and not on the way to it. -/
theorem visits_eq_map :
    rom.visits decoder bank = (rom.cursors decoder bank).map (rom.visitAt decoder bank) := by
  rw [cursors, visits_eq_walk]
  refine rom.walk_induction decoder bank
    (motive := fun _ visits => visits = (visits.map Visit.cursor).map (rom.visitAt decoder bank))
    ?_ ?_ _
  · intro cursor _
    rfl
  · intro cursor visits _ ih
    rw [List.map_cons, List.map_cons, ← ih]
    rfl

theorem bounds_of_mem_cursors {cursor : Nat} (h : cursor ∈ rom.cursors decoder bank) :
    (rom.bankRange bank).start ≤ cursor ∧ cursor < (rom.bankRange bank).stop :=
  (rom.strides_cursors decoder bank).bounds cursor h

variable {rom decoder bank}

theorem eq_visitAt_of_mem_visits {visit : Visit} (h : visit ∈ rom.visits decoder bank) :
    visit = rom.visitAt decoder bank visit.cursor := by
  rw [visits_eq_map] at h
  obtain ⟨cursor, _, rfl⟩ := List.mem_map.mp h
  rfl

theorem address_of_mem_visits {visit : Visit} (h : visit ∈ rom.visits decoder bank) :
    visit.address = UInt32.ofNat visit.cursor := by
  have haddress := congrArg Visit.address (eq_visitAt_of_mem_visits h)
  rwa [address_visitAt] at haddress

theorem window_of_mem_visits {visit : Visit} (h : visit ∈ rom.visits decoder bank) :
    visit.window = rom.windowAt bank visit.cursor := by
  have hwindow := congrArg Visit.window (eq_visitAt_of_mem_visits h)
  rwa [window_visitAt] at hwindow

theorem bounds_of_mem_visits {visit : Visit} (h : visit ∈ rom.visits decoder bank) :
    (rom.bankRange bank).start ≤ visit.cursor ∧ visit.cursor < (rom.bankRange bank).stop :=
  rom.bounds_of_mem_cursors decoder bank (List.mem_map_of_mem h)

end Rom

end RomListing
