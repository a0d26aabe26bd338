import Calculator.Json.Reader
import Calculator.Json.Writer
import Calculator.Proofs.Numeral

/-! String and number literals of JSON text read back as they were written. -/

namespace Calculator.Json

theorem quad?_control : ∀ value < 0x20,
    quad? '0' '0' (Nat.digitChar (value / 16)) (Nat.digitChar (value % 16)) = some value := by
  decide

/-- A character is written behind a backslash, by a letter or its number, or as itself. -/
theorem writeChar_cases (c : Char) :
    (∃ mark, writeChar c = ['\\', mark] ∧ mark ≠ 'u' ∧ escaped? mark = some c.toNat) ∨
    (writeChar c = ['\\', 'u', '0', '0', Nat.digitChar (c.toNat / 16), Nat.digitChar (c.toNat % 16)] ∧
      c.toNat < 0x20) ∨
    (writeChar c = [c] ∧ c ≠ '"' ∧ c ≠ '\\' ∧ ¬c.toNat < 0x20) := by
  by_cases lettered : c ∈ ['"', '\\', '\x08', '\x0c', '\n', '\r', '\t']
  · left
    simp only [List.mem_cons, List.not_mem_nil, or_false] at lettered
    rcases lettered with rfl | rfl | rfl | rfl | rfl | rfl | rfl
    all_goals exact ⟨_, rfl, by decide, rfl⟩
  · right
    simp only [List.mem_cons, List.not_mem_nil, or_false, not_or] at lettered
    by_cases control : c.toNat < 0x20
    · exact .inl ⟨by simp [writeChar, lettered, control], control⟩
    · exact .inr ⟨by simp [writeChar, lettered, control], lettered.1, lettered.2.1, control⟩

/-- A written character is read as one unit, its own number, whatever follows. -/
theorem unitAt?_writeChar (c : Char) (rest : List Char) :
    ∃ first more, writeChar c = first :: more ∧ first ≠ '"' ∧
      unitAt? first (more ++ rest) = some (c.toNat, more.length) := by
  rcases writeChar_cases c with ⟨mark, written, letter, spelled⟩ | ⟨written, control⟩ |
    ⟨written, noQuote, noBackslash, printable⟩
  · exact ⟨_, _, written, by decide, by simp [unitAt?, escapeAt?, letter, spelled]⟩
  · exact ⟨_, _, written, by decide, by simp [unitAt?, escapeAt?, quad?_control c.toNat control]⟩
  · exact ⟨_, _, written, noQuote, by simp [unitAt?, noBackslash, printable]⟩

theorem readUnits_writeChar (c : Char) (rest : List Char) :
    readUnits (writeChar c ++ rest) =
      (readUnits rest).map fun (units, behind) => (c.toNat :: units, behind) := by
  obtain ⟨first, more, written, noQuote, unit⟩ := unitAt?_writeChar c rest
  rw [written, List.cons_append, readUnits, if_neg noQuote, unit]
  simp

theorem readUnits_write (chars rest : List Char) :
    readUnits (chars.flatMap writeChar ++ '"' :: rest) = some (chars.map Char.toNat, rest) := by
  induction chars with
  | nil => simp [readUnits]
  | cons c chars ih => simp [readUnits_writeChar, ih]

theorem isHalf_toNat (c : Char) : isLeadingHalf c.toNat = false ∧ isTrailingHalf c.toNat = false := by
  have valid : c.toNat < 0xd800 ∨ 0xdfff < c.toNat ∧ c.toNat < 0x110000 := c.valid
  simp only [isLeadingHalf, isTrailingHalf, Bool.and_eq_false_iff, decide_eq_false_iff_not]
  omega

theorem assemble_map_toNat (chars : List Char) : assemble (chars.map Char.toNat) = some chars := by
  induction chars with
  | nil => rfl
  | cons c chars ih =>
      obtain ⟨leading, trailing⟩ := isHalf_toNat c
      cases chars with
      | nil => simp [assemble, leading, trailing]
      | cons d chars =>
          simp only [List.map_cons] at ih ⊢
          simp [assemble, leading, trailing, ih]

/-- A string literal reads back as what it spells. -/
theorem readString_writeText (text : String) (rest : List Char) :
    ∃ body, writeText text = '"' :: body ∧ readString (body ++ rest) = some (some text, rest) := by
  refine ⟨_, rfl, ?_⟩
  simp [readString, readUnits_write, assemble_map_toNat]

structure Number.WellFormed (number : Number) : Prop where
  whole : Numeral.Digits number.whole
  started : number.whole ≠ []
  unpadded : number.whole.head? = some '0' → number.whole.length = 1
  fraction : Numeral.Digits number.fraction

/-- No number goes on with the text. -/
def Closes (text : List Char) : Prop :=
  ∀ c, text.head? = some c → c.isDigit = false ∧ c ≠ '.' ∧ c ≠ 'e' ∧ c ≠ 'E'

theorem Closes.stops {text : List Char} (closes : Closes text) : Numeral.Stops text := by
  cases text with
  | nil => rfl
  | cons c rest => exact (closes c rfl).1

theorem readDigits_append {digits rest : List Char} (run : Numeral.Digits digits) (started : digits ≠ [])
    (stops : Numeral.Stops rest) : readDigits (digits ++ rest) = some (digits, rest) := by
  have behind : (digits ++ rest).dropWhile Char.isDigit = rest := Numeral.dropDigits_append run stops
  have taken : (digits ++ rest).takeWhile Char.isDigit = digits := by
    have whole := List.takeWhile_append_dropWhile (p := Char.isDigit) (l := digits ++ rest)
    rw [behind] at whole
    exact List.append_cancel_right whole
  unfold readDigits
  rw [taken, behind]
  split
  · contradiction
  · rfl

theorem readFraction_write {fraction rest : List Char} (run : Numeral.Digits fraction)
    (stops : Numeral.Stops rest) (noPoint : rest.head? ≠ some '.') :
    readFraction ((if fraction = [] then [] else '.' :: fraction) ++ rest) = some (fraction, rest) := by
  split
  · next nothing =>
      subst nothing
      rw [List.nil_append]
      unfold readFraction
      split
      · simp at noPoint
      · rfl
  · next started => exact readDigits_append run started stops

theorem readExponent_of_closes {rest : List Char} (closes : Closes rest) :
    readExponent rest = some (none, rest) := by
  cases rest with
  | nil => rfl
  | cons c rest =>
      obtain ⟨_, _, lower, upper⟩ := closes c rfl
      simp [readExponent, lower, upper]

theorem toDigits_digits (value : Nat) : Numeral.Digits (Nat.toDigits 10 value) := fun _ member =>
  Nat.isDigit_of_mem_toDigits (by decide) (by decide) member

theorem readExponent_write (exponent : Int) {rest : List Char} (closes : Closes rest) :
    readExponent ('e' :: (toString exponent).toList ++ rest) = some (some exponent, rest) := by
  have digits (value : Nat) : readDigits (Nat.toDigits 10 value ++ rest) =
      some (Nat.toDigits 10 value, rest) :=
    readDigits_append (toDigits_digits value) Nat.toDigits_ne_nil closes.stops
  cases exponent with
  | ofNat value =>
      have shown : (toString (Int.ofNat value)).toList = Nat.toDigits 10 value := Nat.toList_repr
      obtain ⟨c, more, first⟩ := List.exists_cons_of_ne_nil (Nat.toDigits_ne_nil (n := value) (b := 10))
      have digit : c.isDigit = true := toDigits_digits value c (by simp [first])
      have read := digits value
      have back := Nat.ofDigitChars_ten_toDigits (n := value)
      rw [shown]
      rw [first, List.cons_append] at read
      rw [first] at back ⊢
      simp [readExponent, Numeral.ne_of_isDigit digit, read, back]
  | negSucc value =>
      have shown : (toString (Int.negSucc value)).toList = '-' :: Nat.toDigits 10 (value + 1) := by
        change (Int.repr (Int.negSucc value)).toList = _
        simp [Int.repr, Nat.toList_repr]
      have back : -((value + 1 : Nat) : Int) = Int.negSucc value := by omega
      rw [shown]
      simp only [List.cons_append, readExponent, true_or, if_true, digits, Option.map_some,
        Nat.ofDigitChars_ten_toDigits, back]

/-- Behind its whole digits, a number is read back as it was written. -/
theorem exists_fraction_exponent {fraction rest : List Char} (run : Numeral.Digits fraction)
    (exponent : Option Int) (closes : Closes rest) :
    ∃ decimals power, (∀ negative whole, writeNumber ⟨negative, whole, fraction, exponent⟩ =
        (if negative then ['-'] else []) ++ (whole ++ (decimals ++ power))) ∧
      Numeral.Stops (decimals ++ (power ++ rest)) ∧
      readFraction (decimals ++ (power ++ rest)) = some (fraction, power ++ rest) ∧
      readExponent (power ++ rest) = some (exponent, rest) := by
  obtain ⟨power, written, read, stops, noPoint⟩ : ∃ power,
      (∀ negative whole, writeNumber ⟨negative, whole, fraction, exponent⟩ =
        (if negative then ['-'] else []) ++
          (whole ++ ((if fraction = [] then [] else '.' :: fraction) ++ power))) ∧
      readExponent (power ++ rest) = some (exponent, rest) ∧ Numeral.Stops (power ++ rest) ∧
      (power ++ rest).head? ≠ some '.' := by
    cases exponent with
    | none =>
        refine ⟨[], by simp [writeNumber], readExponent_of_closes closes, closes.stops, ?_⟩
        intro point
        exact (closes '.' point).2.1 rfl
    | some value =>
        exact ⟨_, by simp [writeNumber], readExponent_write value closes, rfl, by simp⟩
  refine ⟨_, power, written, ?_, readFraction_write run stops noPoint, read⟩
  split
  · exact stops
  · rfl

theorem readNumber_write {number : Number} (wellFormed : number.WellFormed) {rest : List Char}
    (closes : Closes rest) : readNumber (writeNumber number ++ rest) = some (number, rest) := by
  obtain ⟨negative, whole, fraction, exponent⟩ := number
  obtain ⟨run, started, unpadded, decimalRun⟩ := wellFormed
  dsimp only at run started unpadded decimalRun
  obtain ⟨decimals, power, written, stops, readDecimals, readPower⟩ :=
    exists_fraction_exponent decimalRun exponent closes
  have digits := readDigits_append run started stops
  have plain : ¬(whole.head? = some '0' ∧ whole.length ≠ 1) := fun padded =>
    padded.2 (unpadded padded.1)
  simp only [written, List.append_assoc]
  cases negative with
  | true => simp [readNumber, digits, plain, readDecimals, readPower]
  | false =>
      obtain ⟨c, more, first⟩ := List.exists_cons_of_ne_nil started
      have unsigned : c ≠ '-' := Numeral.ne_of_isDigit (run c (by simp [first])) (by decide)
      have start : whole ++ (decimals ++ (power ++ rest)) = c :: (more ++ (decimals ++ (power ++ rest))) := by
        rw [first, List.cons_append]
      rw [start] at digits ⊢
      simp [readNumber, unsigned, digits, plain, readDecimals, readPower]

end Calculator.Json
