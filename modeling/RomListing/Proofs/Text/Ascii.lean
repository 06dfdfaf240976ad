import Mathlib.Data.List.Nodup

/-! Facts about fixed texts by computation. Text whose bytes are all below 128 is its bytes, one for
each character, and bytes are quick to compute with. Texts are told apart by a checksum: different
checksums are found to be different in one pass over a bit set. -/

namespace RomListing

/-- The bytes of a text in UTF-8. -/
def textBytes (text : String) : List UInt8 := text.toByteArray.data.toList

theorem textBytes_eq (text : String) :
    textBytes text = text.toList.flatMap String.utf8EncodeChar := by
  rw [textBytes, ← String.utf8Encode_toList, List.utf8Encode]
  simp

theorem utf8EncodeChar_of_ascii {c : Char} (h : ∀ b ∈ String.utf8EncodeChar c, b < 128) :
    String.utf8EncodeChar c = [UInt8.ofNat c.toNat] ∧ c.toNat < 128 := by
  revert h
  fun_cases String.utf8EncodeChar c with
  | case1 v hv =>
      intro _
      exact ⟨rfl, Nat.lt_succ_of_le hv⟩
  | case2 | case3 | case4 =>
      -- The first byte of a longer code has its upper bit set.
      intro h
      have hfirst := h _ List.mem_cons_self
      rw [UInt8.lt_iff_toNat_lt, UInt8.toNat_ofNat'] at hfirst
      change _ % 256 < 128 at hfirst
      omega

def isAscii (text : String) : Bool := (textBytes text).all (· < 128)

/-- The characters of a text in ASCII are its bytes. -/
def asciiChars (text : String) : List Char := (textBytes text).map fun b => Char.ofNat b.toNat

theorem toList_eq_asciiChars {text : String} (h : isAscii text = true) :
    text.toList = asciiChars text := by
  rw [asciiChars, textBytes_eq]
  simp only [isAscii, textBytes_eq, List.all_eq_true, decide_eq_true_eq] at h
  generalize text.toList = cs at h
  induction cs with
  | nil => rfl
  | cons c cs ih =>
      rw [List.flatMap_cons] at h
      obtain ⟨hc, hlt⟩ := utf8EncodeChar_of_ascii fun b hb => h b (List.mem_append_left _ hb)
      have hcs := ih fun b hb => h b (List.mem_append_right _ hb)
      have hback : Char.ofNat (UInt8.ofNat c.toNat).toNat = c := by
        rw [UInt8.toNat_ofNat', Nat.mod_eq_of_lt (by omega), Char.ofNat_toNat]
      rw [List.flatMap_cons, hc, List.map_append, ← hcs, List.map_singleton, hback]
      rfl

/-- A text of ASCII characters takes one byte for each of them. -/
theorem utf8ByteSize_eq_length {text : String} (h : ∀ c ∈ text.toList, c.toNat < 128) :
    text.utf8ByteSize = text.toList.length := by
  have hbytes : text.utf8ByteSize = (textBytes text).length := rfl
  rw [hbytes, textBytes_eq]
  generalize text.toList = cs at h
  induction cs with
  | nil => rfl
  | cons c cs ih =>
      have hc : c.utf8Size = 1 := by
        rw [Char.utf8Size_eq_one_iff, UInt32.le_iff_toNat_le]
        exact Nat.le_of_lt_succ (h c List.mem_cons_self)
      rw [List.flatMap_cons, List.length_append, String.length_utf8EncodeChar, hc, List.length_cons,
        ih fun d hd => h d (List.mem_cons_of_mem c hd), Nat.add_comm]

/-- A number for a text, small enough to be an index of a bit. -/
def checksum (text : String) : Nat :=
  (textBytes text).foldl (fun sum b => (256 * sum + b.toNat) % 9588) 0

/-- Whether no number occurs twice or is the index of a bit of `seen`. -/
def allNew : Nat → List Nat → Bool
  | _, [] => true
  | seen, number :: numbers => !seen.testBit number && allNew (seen ||| 1 <<< number) numbers

theorem nodup_of_allNew {seen : Nat} {numbers : List Nat} (h : allNew seen numbers = true) :
    numbers.Nodup ∧ ∀ number ∈ numbers, seen.testBit number = false := by
  induction numbers generalizing seen with
  | nil => exact ⟨List.nodup_nil, fun number hmem => absurd hmem List.not_mem_nil⟩
  | cons number numbers ih =>
      rw [allNew, Bool.and_eq_true, Bool.not_eq_true'] at h
      obtain ⟨hnodup, hnew⟩ := ih h.2
      have hbits : ∀ other ∈ numbers, seen.testBit other = false ∧ number ≠ other := by
        intro other hmem
        have hother := hnew other hmem
        rw [Nat.testBit_or, Nat.one_shiftLeft, Nat.testBit_two_pow, Bool.or_eq_false_iff,
          decide_eq_false_iff_not] at hother
        exact hother
      refine ⟨List.nodup_cons.mpr ⟨fun hmem => (hbits number hmem).2 rfl, hnodup⟩, ?_⟩
      intro other hmem
      rcases List.mem_cons.mp hmem with rfl | hrest
      · exact h.1
      · exact (hbits other hrest).1

theorem nodup_of_checksums {texts : List String} (h : allNew 0 (texts.map checksum) = true) :
    texts.Nodup := List.Nodup.of_map checksum (nodup_of_allNew h).1

theorem lookup_of_mem {α β : Type} [BEq α] [LawfulBEq α] {table : List (α × β)}
    (hkeys : (table.map Prod.fst).Nodup) {key : α} {value : β} (h : (key, value) ∈ table) :
    table.lookup key = some value := by
  induction table with
  | nil => exact absurd h List.not_mem_nil
  | cons entry table ih =>
      rw [List.map_cons, List.nodup_cons] at hkeys
      rw [List.lookup_cons]
      rcases List.mem_cons.mp h with rfl | hrest
      · rw [beq_self_eq_true]
      · have hne : key ≠ entry.1 := fun heq => hkeys.1 (heq ▸ List.mem_map_of_mem hrest)
        rw [beq_eq_false_iff_ne.mpr hne]
        exact ih hkeys.2 hrest

theorem mem_of_lookup {α β : Type} [BEq α] [LawfulBEq α] {table : List (α × β)} {key : α}
    {value : β} (h : table.lookup key = some value) : (key, value) ∈ table := by
  obtain ⟨before, after, rfl, _⟩ := List.lookup_eq_some_iff.mp h
  exact List.mem_append_right _ List.mem_cons_self

end RomListing
