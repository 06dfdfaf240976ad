import RomListing.HexDump
import RomListing.Proofs.Text.Digits

/-! Hex dumps by their lines. The dump is made byte by byte, and a byte ends its line if it is the last
one of it by its index; here the dump is shown to be made of groups of bytes, a line for each. The cells
of a dump read back as the bytes that were dumped. -/

namespace RomListing

/-! ### Reading a dump -/

/-- The number that an uppercase hexadecimal digit spells. -/
def HexDump.digitValue? (c : Char) : Option Nat :=
  if '0' ≤ c ∧ c ≤ '9' then some (c.toNat - '0'.toNat)
  else if 'A' ≤ c ∧ c ≤ 'F' then some (c.toNat - 'A'.toNat + 10)
  else none

/-- The bytes that the cells of a dump spell, wherever its lines end. -/
def HexDump.cells? : List Char → Option (List UInt8)
  | [] => some []
  | '\n' :: rest => cells? rest
  | high :: low :: ' ' :: rest => do
      let upper ← digitValue? high
      let lower ← digitValue? low
      return UInt8.ofNat (16 * upper + lower) :: (← cells? rest)
  | _ => none

namespace Hex

/-- A byte takes two digits, of which none is a line feed. -/
theorem toList_upperByte (byte : UInt8) : ∃ high low, (upperByte byte).toList = [high, low] ∧
    high ≠ '\n' ∧ low ≠ '\n' ∧ HexDump.digitValue? high = some (byte.toNat / 16) ∧
    HexDump.digitValue? low = some (byte.toNat % 16) := by
  have hdigit : ∀ d ∈ List.range 16, d.digitChar.toUpper ≠ '\n' ∧
      HexDump.digitValue? d.digitChar.toUpper = some d := by
    decide
  have hlow := hdigit (byte.toNat % 16) (List.mem_range.mpr (Nat.mod_lt _ (by decide)))
  have hhigh := hdigit (byte.toNat / 16 % 16) (List.mem_range.mpr (Nat.mod_lt _ (by decide)))
  have hbyte : byte.toNat / 16 % 16 = byte.toNat / 16 := by
    have := byte.toNat_lt
    omega
  rw [hbyte] at hhigh
  refine ⟨_, _, ?_, hhigh.1, hlow.1, hhigh.2, hlow.2⟩
  simp [upperByte, lastDigits, hbyte]

end Hex

namespace HexDump

/-- The number of bytes that a dump shows. -/
def shownCount (bytes : List UInt8) (limit : Option Nat) : Nat :=
  min (limit.getD bytes.length) bytes.length

theorem shownCount_none (bytes : List UInt8) : shownCount bytes none = bytes.length := by
  rw [shownCount, Option.getD_none, Nat.min_self]

theorem shownCount_le (bytes : List UInt8) (limit : Option Nat) :
    shownCount bytes limit ≤ bytes.length := Nat.min_le_right _ _

/-- The dump of bytes that follow as many bytes as `index` tells. -/
def dumpFrom (perLine index : Nat) (bytes : List UInt8) : String :=
  String.join ((bytes.zipIdx index).map fun (byte, index) => cell perLine byte index)

theorem dumpFrom_nil (perLine index : Nat) : dumpFrom perLine index [] = "" := rfl

theorem dumpFrom_cons (perLine index : Nat) (byte : UInt8) (rest : List UInt8) :
    dumpFrom perLine index (byte :: rest) =
      cell perLine byte index ++ dumpFrom perLine (index + 1) rest := by
  rw [dumpFrom, List.zipIdx_cons, List.map_cons, String.join_cons]
  rfl

theorem dumpFrom_append (perLine index : Nat) (bytes others : List UInt8) :
    dumpFrom perLine index (bytes ++ others) =
      dumpFrom perLine index bytes ++ dumpFrom perLine (index + bytes.length) others := by
  rw [dumpFrom, List.zipIdx_append, List.map_append, String.join_append]
  rfl

theorem render_eq (bytes : List UInt8) (perLine : Nat) (limit : Option Nat) :
    render bytes perLine limit =
      dumpFrom (max perLine 1) 0 (bytes.take (shownCount bytes limit)) := by
  cases limit with
  | none =>
      rw [shownCount_none, List.take_length]
      rfl
  | some count =>
      rw [shownCount, Option.getD_some, ← List.take_eq_take_min]
      rfl

/-- The cells of a dump read back, whatever the lines. -/
theorem cells?_dumpFrom (perLine index : Nat) (bytes : List UInt8) :
    cells? (dumpFrom perLine index bytes).toList = some bytes := by
  induction bytes generalizing index with
  | nil => rfl
  | cons byte rest ih =>
      obtain ⟨high, low, hbyte, hhigh, _, hupper, hlower⟩ := Hex.toList_upperByte byte
      have hvalue : UInt8.ofNat (16 * (byte.toNat / 16) + byte.toNat % 16) = byte := by
        rw [Nat.div_add_mod, UInt8.ofNat_toNat]
      have hcell : ∀ chars, cells? chars = some rest →
          cells? (high :: low :: ' ' :: chars) = some (byte :: rest) := by
        intro chars hchars
        rw [cells?, hupper, hlower, hchars]
        · exact congrArg (fun first => some (first :: rest)) hvalue
        · exact hhigh
      rw [dumpFrom_cons, String.toList_append, cell, String.toList_append, hbyte]
      split
      · exact hcell _ (ih (index + 1))
      · exact hcell _ (ih (index + 1))

/-! ### Lines -/

theorem succ_mod {perLine : Nat} (hpos : 1 ≤ perLine) (index : Nat) :
    (index + 1) % perLine = if index % perLine = perLine - 1 then 0 else index % perLine + 1 := by
  have hlt := Nat.mod_lt index hpos
  split
  · rename_i hlast
    have hfull : index % perLine + 1 = perLine := by omega
    rw [← Nat.mod_add_mod, hfull, Nat.mod_self]
  · rw [← Nat.mod_add_mod, Nat.mod_eq_of_lt (by omega)]

/-- A byte's cell ends its line exactly if the next index starts one. -/
theorem count_cell (perLine : Nat) (byte : UInt8) (index : Nat) :
    (cell perLine byte index).toList.count '\n' =
      if index % perLine = perLine - 1 then 1 else 0 := by
  obtain ⟨high, low, hbyte, hhigh, hlow, _⟩ := Hex.toList_upperByte byte
  rw [cell, String.toList_append, hbyte]
  split
  · simp [hhigh, hlow]
  · simp [hhigh, hlow]

/-- As many lines end in a dump as are filled by its bytes and those before it in its first line. -/
theorem count_dumpFrom {perLine : Nat} (hpos : 1 ≤ perLine) (index : Nat) (bytes : List UInt8) :
    (dumpFrom perLine index bytes).toList.count '\n' =
      (index % perLine + bytes.length) / perLine := by
  have hlt := Nat.mod_lt index hpos
  induction bytes generalizing index with
  | nil =>
      rw [List.length_nil, Nat.add_zero, Nat.div_eq_of_lt hlt]
      rfl
  | cons byte rest ih =>
      rw [dumpFrom_cons, String.toList_append, List.count_append, count_cell,
        ih (index + 1) (Nat.mod_lt _ hpos), succ_mod hpos, List.length_cons]
      split
      · rename_i hlast
        have hfull : index % perLine + (rest.length + 1) = rest.length + perLine := by omega
        rw [hfull, Nat.add_div_right _ hpos, Nat.zero_add, Nat.add_comm]
      · rw [Nat.zero_add, Nat.add_assoc, Nat.add_comm 1]

/-- The bytes in groups of `size`, in order. The last group may be shorter. -/
def groups (size : Nat) : List UInt8 → List (List UInt8)
  | [] => []
  | byte :: rest => (byte :: rest.take (size - 1)) :: groups size (rest.drop (size - 1))
  termination_by bytes => bytes.length
  decreasing_by
    rw [List.length_drop, List.length_cons]
    omega

theorem groups_of_ne_nil {size : Nat} (hpos : 1 ≤ size) {bytes : List UInt8} (h : bytes ≠ []) :
    groups size bytes = bytes.take size :: groups size (bytes.drop size) := by
  obtain ⟨count, rfl⟩ : ∃ count, size = count + 1 := Nat.exists_eq_add_of_le' hpos
  cases bytes with
  | nil => exact absurd rfl h
  | cons byte rest =>
      rw [groups, List.take_succ_cons, List.drop_succ_cons, Nat.add_sub_cancel]

/-- A byte's cell: two digits and a blank. -/
def plainCell (byte : UInt8) : String := Hex.upperByte byte ++ " "

/-- The line of a group. Only a full group ends it. -/
def line (perLine : Nat) (group : List UInt8) : String :=
  String.join (group.map plainCell) ++ if group.length = perLine then "\n" else ""

/-- Bytes that go no further than their line. They end it if they fill it up. -/
theorem dumpFrom_within_line {perLine index : Nat} {group : List UInt8}
    (hlt : index % perLine < perLine) (hle : index % perLine + group.length ≤ perLine) :
    dumpFrom perLine index group = String.join (group.map plainCell) ++
      if index % perLine + group.length = perLine then "\n" else "" := by
  induction group generalizing index with
  | nil =>
      rw [List.length_nil, Nat.add_zero, if_neg (Nat.ne_of_lt hlt)]
      rfl
  | cons byte rest ih =>
      rw [List.length_cons] at hle ⊢
      rw [dumpFrom_cons, List.map_cons, String.join_cons, cell, plainCell]
      have hnext := succ_mod (Nat.zero_lt_of_lt hlt) index
      by_cases hlast : index % perLine = perLine - 1
      · -- The byte fills the line, so it is the last one.
        obtain rfl : rest = [] := List.length_eq_zero_iff.mp (by omega)
        rw [if_pos hlast, if_pos (by rw [List.length_nil]; omega), dumpFrom_nil, List.map_nil,
          String.join_nil, String.append_empty, String.append_empty, String.append_assoc]
        rfl
      · rw [if_neg hlast] at hnext
        rw [if_neg hlast, ih (by omega) (by omega), hnext, Nat.add_assoc, Nat.add_comm 1]
        simp only [String.append_assoc]

/-- From the start of a line on, a dump has a line for each group. -/
theorem dumpFrom_eq_groups {perLine : Nat} (hpos : 1 ≤ perLine) {index : Nat}
    (hindex : index % perLine = 0) (bytes : List UInt8) :
    dumpFrom perLine index bytes = String.join ((groups perLine bytes).map (line perLine)) := by
  induction hlength : bytes.length using Nat.strongRecOn generalizing index bytes with
  | ind length ih =>
      by_cases hnil : bytes = []
      · rw [hnil, groups]
        rfl
      · have hne := List.length_pos_iff.mpr hnil
        have hgroup : (bytes.take perLine).length ≤ perLine := List.length_take_le _ _
        have hline : dumpFrom perLine index (bytes.take perLine) = line perLine (bytes.take perLine) := by
          rw [dumpFrom_within_line (by omega) (by omega), hindex, Nat.zero_add, line]
        have hrest : dumpFrom perLine (index + (bytes.take perLine).length) (bytes.drop perLine) =
            String.join ((groups perLine (bytes.drop perLine)).map (line perLine)) := by
          by_cases hlast : bytes.drop perLine = []
          · rw [hlast, groups]
            rfl
          · -- There is more behind the group, so it is full and ends at the start of a line.
            have hfull : (bytes.take perLine).length = perLine := by
              have := List.length_pos_iff.mpr hlast
              rw [List.length_drop] at this
              rw [List.length_take]
              omega
            rw [hfull]
            exact ih _ (by rw [List.length_drop]; omega) (by rw [Nat.add_mod_right, hindex]) _ rfl
        rw [groups_of_ne_nil hpos hnil, List.map_cons, String.join_cons, ← hline, ← hrest,
          ← dumpFrom_append, List.take_append_drop]

end HexDump

/-- **Hex dumps.** A dump shows the bytes up to the limit in groups, a line feed behind each full one only,
and its cells read back as these bytes. -/
theorem dump_shows_groups (bytes : List UInt8) (perLine : Nat) (limit : Option Nat) :
    HexDump.render bytes perLine limit =
        String.join ((HexDump.groups (max perLine 1)
          (bytes.take (HexDump.shownCount bytes limit))).map fun group =>
            String.join (group.map fun byte => Hex.upperByte byte ++ " ") ++
              if group.length = max perLine 1 then "\n" else "") ∧
      (HexDump.render bytes perLine limit).toList.count '\n' =
        HexDump.shownCount bytes limit / max perLine 1 ∧
      HexDump.cells? (HexDump.render bytes perLine limit).toList =
        some (bytes.take (HexDump.shownCount bytes limit)) ∧
      HexDump.render bytes perLine limit =
        HexDump.render (bytes.take (HexDump.shownCount bytes limit)) perLine none := by
  have hpos : 1 ≤ max perLine 1 := Nat.le_max_right _ _
  have hlength : (bytes.take (HexDump.shownCount bytes limit)).length =
      HexDump.shownCount bytes limit := by
    rw [List.length_take, Nat.min_eq_left (HexDump.shownCount_le bytes limit)]
  refine ⟨?_, ?_, ?_, ?_⟩
  · rw [HexDump.render_eq]
    exact HexDump.dumpFrom_eq_groups hpos (Nat.zero_mod _) _
  · rw [HexDump.render_eq, HexDump.count_dumpFrom hpos, Nat.zero_mod, Nat.zero_add, hlength]
  · rw [HexDump.render_eq, HexDump.cells?_dumpFrom]
  · rw [HexDump.render_eq, HexDump.render_eq _ perLine none, HexDump.shownCount_none,
      List.take_length]

example : HexDump.render [0x00, 0x01, 0x0a, 0xbc, 0xff] 2 (some 3) = "00 01 \n0A " := by decide

end RomListing
