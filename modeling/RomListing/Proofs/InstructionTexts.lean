import RomListing.Proofs.Text.Ascii
import RomListing.Proofs.Text.Digits

/-! The texts of the instruction set. They are made of a few kinds of characters, none of which could be
taken for the end of a line, a remark or a comment, and no two instructions share a text or the texts
around an operand, so each text leads back to its instruction. -/

namespace RomListing

/-- The characters of source text: lowercase letters, digits and a few marks. -/
def isSource (c : Char) : Bool := c.isLower || c.isDigit || [' ', ',', '[', ']', '+', '$'].contains c

/-- Source text that does not end in a blank. -/
def Legible (text : List Char) : Prop := text.all isSource ∧ text.getLast? ≠ some ' '

instance (text : List Char) : Decidable (Legible text) := inferInstanceAs (Decidable (_ ∧ _))

/-- The texts around an operand: a number between them can be told from both. -/
structure IsFrame (before after : List Char) : Prop where
  before_source : before.all isSource
  before_dollar : '$' ∉ before
  after_source : after.all isSource
  after_digit : after.head?.all (!Reassembly.isDigit ·)
  after_blank : after.getLast? ≠ some ' '

instance (before after : List Char) : Decidable (IsFrame before after) :=
  decidable_of_iff
    (before.all isSource ∧ '$' ∉ before ∧ after.all isSource ∧
      after.head?.all (!Reassembly.isDigit ·) ∧ after.getLast? ≠ some ' ')
    ⟨fun ⟨h₁, h₂, h₃, h₄, h₅⟩ => ⟨h₁, h₂, h₃, h₄, h₅⟩,
      fun ⟨h₁, h₂, h₃, h₄, h₅⟩ => ⟨h₁, h₂, h₃, h₄, h₅⟩⟩

namespace Reassembly

theorem mem_allBytes (byte : UInt8) : byte ∈ allBytes :=
  List.mem_map.mpr ⟨byte.toNat, List.mem_range.mpr byte.toNat_lt, UInt8.ofNat_toNat⟩

theorem mem_fixedTexts_of_plain {byte : UInt8} {text : String}
    (h : Opcode.ofByte byte = .plain text) : (text, [byte]) ∈ fixedTexts := by
  refine List.mem_append_left _ (List.mem_filterMap.mpr ⟨byte, mem_allBytes byte, ?_⟩)
  rw [h]

theorem mem_fixedTexts_of_stop {byte : UInt8} (h : Opcode.ofByte byte = .stop) :
    ("stop", [byte, 0]) ∈ fixedTexts := by
  refine List.mem_append_left _ (List.mem_filterMap.mpr ⟨byte, mem_allBytes byte, ?_⟩)
  rw [h]

theorem mem_fixedTexts_of_extended (selector : UInt8) :
    ((Extended.ofByte selector).text, [Opcode.extendedByte, selector]) ∈ fixedTexts :=
  List.mem_append_right _ (List.mem_map.mpr ⟨selector, mem_allBytes selector, rfl⟩)

theorem mem_operandTexts {byte : UInt8} {before after : String} {operand : Operand}
    (h : Opcode.ofByte byte = .withOperand before operand after) :
    ((before, after), (byte, operand)) ∈ operandTexts := by
  refine List.mem_filterMap.mpr ⟨byte, mem_allBytes byte, ?_⟩
  rw [h]

/-! ### Facts by computation

Those about one table stand in one lemma, so that the table is gone through once. -/

theorem ofByte_allBytes : ∀ byte ∈ allBytes,
    (Opcode.ofByte byte = .extended → byte = Opcode.extendedByte) ∧
      (Opcode.ofByte byte = .stop → byte = Opcode.stopByte) := by
  decide +kernel

/-- The few texts with a number of their own do not look like an instruction with an operand. -/
theorem asciiChars_fixedTexts : ∀ entry ∈ fixedTexts,
    isAscii entry.1 ∧ Legible (asciiChars entry.1) ∧
      ('$' ∈ asciiChars entry.1 →
        operandTexts.lookup (frame (asciiChars entry.1)) = none ∧
          frame (asciiChars entry.1) ≠ dataFrame) := by
  decide +kernel

theorem asciiChars_operandTexts : ∀ entry ∈ operandTexts,
    isAscii entry.1.1 ∧ isAscii entry.1.2 ∧
      IsFrame (asciiChars entry.1.1) (asciiChars entry.1.2) ∧ entry.1 ≠ dataFrame ∧
      (asciiChars entry.1.1).all (!·.isDigit) := by
  decide +kernel

theorem nodup_fixedTexts : (fixedTexts.map Prod.fst).Nodup :=
  nodup_of_checksums (by decide +kernel)

theorem nodup_operandTexts : (operandTexts.map Prod.fst).Nodup := by
  decide +kernel

theorem isFrame_dataFrame : IsFrame dataFrame.1.toList dataFrame.2.toList := by
  decide

/-! ### The opcodes without a text of their own -/

theorem eq_extendedByte {byte : UInt8} (h : Opcode.ofByte byte = .extended) :
    byte = Opcode.extendedByte :=
  (ofByte_allBytes byte (mem_allBytes byte)).1 h

theorem eq_stopByte {byte : UInt8} (h : Opcode.ofByte byte = .stop) : byte = Opcode.stopByte :=
  (ofByte_allBytes byte (mem_allBytes byte)).2 h

/-! ### The same of the texts themselves -/

theorem legible_of_mem_fixedTexts {text : String} {bytes : List UInt8}
    (h : (text, bytes) ∈ fixedTexts) : Legible text.toList := by
  obtain ⟨hascii, hlegible, _⟩ := asciiChars_fixedTexts _ h
  rw [toList_eq_asciiChars hascii]
  exact hlegible

theorem frame_of_mem_fixedTexts {text : String} {bytes : List UInt8}
    (h : (text, bytes) ∈ fixedTexts) (hdollar : '$' ∈ text.toList) :
    operandTexts.lookup (frame text.toList) = none ∧ frame text.toList ≠ dataFrame := by
  obtain ⟨hascii, _, hframe⟩ := asciiChars_fixedTexts _ h
  rw [toList_eq_asciiChars hascii] at hdollar ⊢
  exact hframe hdollar

theorem isFrame_of_mem_operandTexts {before after : String} {opcode : UInt8 × Operand}
    (h : ((before, after), opcode) ∈ operandTexts) :
    IsFrame before.toList after.toList ∧ (before, after) ≠ dataFrame := by
  obtain ⟨hbefore, hafter, hframe, hne, _⟩ := asciiChars_operandTexts _ h
  rw [toList_eq_asciiChars hbefore, toList_eq_asciiChars hafter]
  exact ⟨hframe, hne⟩

theorem isDigit_of_mem_operandTexts {before after : String} {opcode : UInt8 × Operand}
    (h : ((before, after), opcode) ∈ operandTexts) : ∀ c ∈ before.toList, c.isDigit = false := by
  obtain ⟨hbefore, _, _, _, hdigits⟩ := asciiChars_operandTexts _ h
  intro c hc
  rw [toList_eq_asciiChars hbefore] at hc
  simpa using List.all_eq_true.mp hdigits c hc

end Reassembly

/-! ### Templates -/

/-- A text with the first occurrence of a pattern in it replaced. An empty pattern occurs in front. -/
def replaceFirst (pattern text : List Char) : List Char → List Char
  | [] => if pattern.isEmpty then text else []
  | c :: cs =>
      if pattern.isPrefixOf (c :: cs) then text ++ (c :: cs).drop pattern.length
      else c :: replaceFirst pattern text cs

/-- A pattern whose second character is not found in front of it, nor at its own start, does not occur
earlier. -/
theorem replaceFirst_append {first second : Char} {rest text before after : List Char}
    (hbefore : second ∉ before) (hne : first ≠ second) :
    replaceFirst (first :: second :: rest) text (before ++ first :: second :: rest ++ after) =
      before ++ text ++ after := by
  induction before with
  | nil => simp [replaceFirst]
  | cons c cs ih =>
      have hcs : second ∉ cs := List.not_mem_of_not_mem_cons hbefore
      -- The character behind `c` is one of those in front of the pattern, or the pattern's first one.
      have hearlier : (first :: second :: rest).isPrefixOf
          (c :: (cs ++ first :: second :: rest ++ after)) = false := by
        cases cs with
        | nil => simp [List.isPrefixOf, hne.symm]
        | cons d ds => simp [List.isPrefixOf, List.ne_of_not_mem_cons hcs]
      rw [List.cons_append, List.cons_append, replaceFirst, hearlier, if_neg Bool.false_ne_true,
        ih hcs]
      rfl

theorem Operand.toList_name (operand : Operand) : ∃ first second rest,
    operand.name.toList = first :: second :: rest ∧ first.isDigit = false ∧ second.isDigit = true := by
  cases operand <;> exact ⟨_, _, _, rfl, rfl, rfl⟩

/-- The operand takes the place of its name in the template of the opcode. -/
theorem Opcode.replaceFirst_template {byte : UInt8} {before after : String} {operand : Operand}
    (h : ofByte byte = .withOperand before operand after) (text : String) :
    String.ofList (replaceFirst operand.name.toList text.toList (ofByte byte).template.toList) =
      before ++ text ++ after := by
  obtain ⟨first, second, rest, hname, hfirst, hsecond⟩ := operand.toList_name
  have hbefore : second ∉ before.toList := by
    intro hmem
    have hdigit := Reassembly.isDigit_of_mem_operandTexts (Reassembly.mem_operandTexts h) second hmem
    rw [hsecond] at hdigit
    contradiction
  have hne : first ≠ second := by
    rintro rfl
    rw [hfirst] at hsecond
    contradiction
  rw [h, template, String.toList_append, String.toList_append, hname,
    replaceFirst_append hbefore hne]
  simp [String.append_assoc]

/-! ### Texts with a number -/

theorem isSource_of_mem_digits {width n : Nat} {c : Char} (h : c ∈ Hex.digits width n) :
    isSource c = true ∧ c ≠ ' ' := by
  have hall : ∀ d ∈ List.range 16, isSource d.digitChar = true ∧ d.digitChar ≠ ' ' := by decide
  obtain ⟨d, hd, rfl⟩ := Hex.mem_digits h
  exact hall d (List.mem_range.mpr hd)

namespace IsFrame

variable {before after : List Char}

theorem legible (h : IsFrame before after) (width n : Nat) :
    Legible (before ++ '$' :: Hex.digits width n ++ after) := by
  constructor
  · have hdigits : (Hex.digits width n).all isSource :=
      List.all_eq_true.mpr fun c hc => (isSource_of_mem_digits hc).1
    have hdollar : isSource '$' = true := rfl
    rw [List.all_append, List.all_append, List.all_cons, h.before_source, hdollar, hdigits,
      h.after_source]
    rfl
  · -- The text ends with what stands behind the number, or else with the number's last digit.
    obtain ⟨init, last, hdigits⟩ :=
      (List.eq_nil_or_concat' (Hex.digits width n)).resolve_left (Hex.digits_ne_nil width n)
    have hmem : last ∈ Hex.digits width n := by
      rw [hdigits]
      exact List.mem_append_right _ List.mem_cons_self
    have hlast : last ≠ ' ' := (isSource_of_mem_digits hmem).2
    rw [List.getLast?_append]
    cases hafter : after.getLast? with
    | some c => exact fun heq => h.after_blank (hafter.trans heq)
    | none =>
        have hline : before ++ '$' :: Hex.digits width n = (before ++ '$' :: init) ++ [last] := by
          simp [hdigits]
        rw [Option.none_or, hline, List.getLast?_concat]
        exact fun heq => hlast (Option.some_inj.mp heq)

theorem takeWhile_dollar (h : IsFrame before after) (rest : List Char) :
    (before ++ '$' :: rest).takeWhile (· != '$') = before := by
  rw [List.takeWhile_append_of_pos]
  · simp
  · intro c hc
    exact bne_iff_ne.mpr fun heq => h.before_dollar (heq ▸ hc)

theorem dropWhile_dollar (h : IsFrame before after) (rest : List Char) :
    ((before ++ '$' :: rest).dropWhile (· != '$')).drop 1 = rest := by
  rw [List.dropWhile_append_of_pos]
  · simp
  · intro c hc
    exact bne_iff_ne.mpr fun heq => h.before_dollar (heq ▸ hc)

theorem isDigit_head {c : Char} {cs : List Char} (h : IsFrame before (c :: cs)) :
    Reassembly.isDigit c = false := by
  have hdigit := h.after_digit
  rwa [List.head?_cons, Option.all_some, Bool.not_eq_true'] at hdigit

theorem takeWhile_isDigit (h : IsFrame before after) (width n : Nat) :
    (Hex.digits width n ++ after).takeWhile Reassembly.isDigit = Hex.digits width n := by
  rw [List.takeWhile_append_of_pos fun c hc => Hex.isDigit_of_mem_digits hc]
  cases after with
  | nil => simp
  | cons c cs => simp [h.isDigit_head]

theorem dropWhile_isDigit (h : IsFrame before after) (width n : Nat) :
    (Hex.digits width n ++ after).dropWhile Reassembly.isDigit = after := by
  rw [List.dropWhile_append_of_pos fun c hc => Hex.isDigit_of_mem_digits hc]
  cases after with
  | nil => rfl
  | cons c cs => simp [h.isDigit_head]

end IsFrame

end RomListing
