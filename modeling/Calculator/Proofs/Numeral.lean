import Calculator.ByteCode.Number
import Calculator.Proofs.Scanner.Lexeme

/-! The grammar of decimal numbers, which the scanner accepts as numbers and which have byte code. -/

namespace Calculator

namespace Numeral

def Digits (text : List Char) : Prop := ∀ c ∈ text, c.isDigit = true

/-- Digits with at most one point among them, and one of them before it or right behind it. -/
inductive Mantissa : List Char → Prop
  | whole {digits : List Char} (run : Digits digits) (started : digits ≠ []) : Mantissa digits
  | pointed {digits fraction : List Char} (run : Digits digits) (started : digits ≠ [])
      (behind : Digits fraction) : Mantissa (digits ++ '.' :: fraction)
  | fraction {fraction : List Char} (behind : Digits fraction) (started : fraction ≠ []) :
      Mantissa ('.' :: fraction)

inductive Exponent : List Char → Prop
  | absent : Exponent []
  | power {mark : Char} {digits : List Char} (marked : mark = 'E' ∨ mark = 'e') (run : Digits digits)
      (started : digits ≠ []) : Exponent (mark :: digits)
  | negative {mark : Char} {digits : List Char} (marked : mark = 'E' ∨ mark = 'e')
      (run : Digits digits) (started : digits ≠ []) : Exponent (mark :: '-' :: digits)

inductive Number : List Char → Prop
  | positive {mantissa exponent : List Char} (digits : Mantissa mantissa) (power : Exponent exponent) :
      Number (mantissa ++ exponent)
  | negative {mantissa exponent : List Char} (digits : Mantissa mantissa) (power : Exponent exponent) :
      Number ('-' :: (mantissa ++ exponent))

def Stops (text : List Char) : Prop := startsWithDigit text = false

theorem dropDigits_append {digits tail : List Char} (run : Digits digits) (stops : Stops tail) :
    dropDigits (digits ++ tail) = tail := by
  rw [dropDigits, List.dropWhile_append_of_pos run]
  cases tail with
  | nil => rfl
  | cons c rest =>
      simp only [Stops, startsWithDigit] at stops
      simp [stops]

theorem Exponent.stops {exponent : List Char} (power : Exponent exponent) : Stops exponent := by
  cases power with
  | absent => rfl
  | power marked _ _ => rcases marked with rfl | rfl <;> rfl
  | negative marked _ _ => rcases marked with rfl | rfl <;> rfl

theorem startsWithDigit_append {digits : List Char} (run : Digits digits) (started : digits ≠ [])
    (tail : List Char) : startsWithDigit (digits ++ tail) = true := by
  cases digits with
  | nil => contradiction
  | cons c rest => exact run c (by simp)

theorem dropSign_of_startsWithDigit {text : List Char} (digit : startsWithDigit text = true) :
    dropSign text = text := by
  unfold dropSign
  split
  · simp [startsWithDigit] at digit
  · rfl

theorem Exponent.dropExponent_eq {exponent : List Char} (power : Exponent exponent) :
    dropExponent exponent = [] := by
  have nothing : Stops [] := rfl
  have whole {digits : List Char} (run : Digits digits) : dropDigits digits = [] := by
    simpa using dropDigits_append run nothing
  cases power with
  | absent => rfl
  | @power mark digits marked run started =>
      have digit : startsWithDigit digits = true := by
        simpa using startsWithDigit_append run started []
      simp [dropExponent, marked, dropSign_of_startsWithDigit digit, digit, whole run]
  | @negative mark digits marked run started =>
      have digit : startsWithDigit digits = true := by
        simpa using startsWithDigit_append run started []
      simp [dropExponent, marked, dropSign, digit, whole run]

theorem Exponent.dropFraction_eq {exponent : List Char} (power : Exponent exponent) :
    dropFraction exponent = exponent := by
  cases power with
  | absent => rfl
  | power marked _ _ => rcases marked with rfl | rfl <;> rfl
  | negative marked _ _ => rcases marked with rfl | rfl <;> rfl

theorem Mantissa.dropSign_eq {mantissa : List Char} (digits : Mantissa mantissa) (tail : List Char) :
    dropSign (mantissa ++ tail) = mantissa ++ tail := by
  cases digits with
  | whole run started => exact dropSign_of_startsWithDigit (startsWithDigit_append run started tail)
  | pointed run started behind =>
      rw [List.append_assoc]
      exact dropSign_of_startsWithDigit (startsWithDigit_append run started _)
  | fraction behind started => rfl

theorem starts_of_startsWithDigit {text : List Char} (digit : startsWithDigit (dropSign text) = true) :
    starts text = true := by
  unfold starts
  split
  · next point => simp [point, startsWithDigit] at digit
  · exact digit

theorem Mantissa.starts_eq {mantissa text tail : List Char} (digits : Mantissa mantissa)
    (unsigned : dropSign text = mantissa ++ tail) : starts text = true := by
  cases digits with
  | whole run started =>
      apply starts_of_startsWithDigit
      rw [unsigned]
      exact startsWithDigit_append run started tail
  | pointed run started behind =>
      apply starts_of_startsWithDigit
      rw [unsigned, List.append_assoc]
      exact startsWithDigit_append run started _
  | fraction behind started =>
      rw [starts, unsigned]
      exact startsWithDigit_append behind started tail

theorem Mantissa.drop_eq {mantissa exponent : List Char} (digits : Mantissa mantissa)
    (power : Exponent exponent) : dropFraction (dropDigits (mantissa ++ exponent)) = exponent := by
  cases digits with
  | whole run started => rw [dropDigits_append run power.stops, power.dropFraction_eq]
  | @pointed digits fraction run started behind =>
      have point : Stops ('.' :: (fraction ++ exponent)) := rfl
      rw [List.append_assoc, List.cons_append, dropDigits_append run point, dropFraction,
        dropDigits_append behind power.stops]
  | @fraction fraction behind started =>
      have point : dropDigits ('.' :: (fraction ++ exponent)) = '.' :: (fraction ++ exponent) := rfl
      rw [List.cons_append, point, dropFraction, dropDigits_append behind power.stops]

theorem isNumeral_of_number {word : List Char} (number : Number word) : isNumeral word = true := by
  have unsigned {word mantissa exponent : List Char} (digits : Mantissa mantissa)
      (power : Exponent exponent) (signless : dropSign word = mantissa ++ exponent) :
      isNumeral word = true := by
    simp only [isNumeral, digits.starts_eq signless, signless, digits.drop_eq power,
      power.dropExponent_eq]
    rfl
  cases number with
  | positive digits power => exact unsigned digits power (digits.dropSign_eq _)
  | negative digits power => exact unsigned digits power rfl

theorem exists_digits (text : List Char) : ∃ digits, text = digits ++ dropDigits text ∧ Digits digits ∧
    (startsWithDigit text = true → digits ≠ []) := by
  refine ⟨text.takeWhile Char.isDigit, List.takeWhile_append_dropWhile.symm, ?_, ?_⟩
  · intro c member
    exact List.mem_takeWhile_imp member
  · cases text with
    | nil => simp [startsWithDigit]
    | cons c rest =>
        intro digit
        rw [startsWithDigit] at digit
        simp [digit]

theorem dropSign_cases (text : List Char) : text = dropSign text ∨ text = '-' :: dropSign text := by
  unfold dropSign
  split
  · exact .inr rfl
  · exact .inl rfl

theorem exponent_of_dropExponent {text : List Char} (nothing : dropExponent text = []) : Exponent text := by
  cases text with
  | nil => exact .absent
  | cons mark rest =>
      simp only [dropExponent] at nothing
      split at nothing
      · next power =>
          obtain ⟨digits, split, run, started⟩ := exists_digits (dropSign rest)
          rw [nothing, List.append_nil] at split
          rcases dropSign_cases rest with same | signed
          · rw [same, split]
            exact .power power.1 run (started power.2)
          · rw [signed, split]
            exact .negative power.1 run (started power.2)
      · cases nothing

theorem exists_mantissa {word : List Char} (begins : starts word = true) :
    ∃ mantissa, Mantissa mantissa ∧ dropSign word = mantissa ++ dropFraction (dropDigits (dropSign word)) := by
  unfold starts at begins
  split at begins
  · next rest point =>
      obtain ⟨digits, split, run, started⟩ := exists_digits rest
      have behind : dropFraction (dropDigits ('.' :: rest)) = dropDigits rest := rfl
      refine ⟨'.' :: digits, .fraction run (started begins), ?_⟩
      rw [point, behind, List.cons_append, ← split]
  · obtain ⟨digits, split, run, started⟩ := exists_digits (dropSign word)
    cases behind : dropDigits (dropSign word) with
    | nil =>
        rw [behind] at split
        exact ⟨digits, .whole run (started begins), split⟩
    | cons c rest =>
        rw [behind] at split
        by_cases point : c = '.'
        · subst point
          obtain ⟨fraction, splitAgain, runAgain, _⟩ := exists_digits rest
          refine ⟨digits ++ '.' :: fraction, .pointed run (started begins) runAgain, ?_⟩
          rw [split, dropFraction, List.append_assoc, List.cons_append, ← splitAgain]
        · refine ⟨digits, .whole run (started begins), ?_⟩
          rw [split]
          simp [dropFraction, point]

theorem number_of_isNumeral {word : List Char} (numeral : isNumeral word = true) : Number word := by
  simp only [isNumeral, Bool.and_eq_true, beq_iff_eq] at numeral
  obtain ⟨mantissa, digits, split⟩ := exists_mantissa numeral.1
  have power := exponent_of_dropExponent numeral.2
  rcases dropSign_cases word with same | signed
  · rw [same, split]
    exact .positive digits power
  · rw [signed, split]
    exact .negative digits power

def IsNumeric (c : Char) : Prop := c.isDigit = true ∨ c = '.' ∨ c = 'E' ∨ c = 'e' ∨ c = '-'

theorem Digits.isNumeric {text : List Char} (run : Digits text) : ∀ c ∈ text, IsNumeric c :=
  fun c member => .inl (run c member)

theorem Mantissa.isNumeric {mantissa : List Char} (digits : Mantissa mantissa) :
    ∀ c ∈ mantissa, IsNumeric c := by
  intro c member
  cases digits with
  | whole run _ => exact run.isNumeric c member
  | pointed run _ behind =>
      rcases List.mem_append.mp member with before | after
      · exact run.isNumeric c before
      · rcases List.mem_cons.mp after with rfl | later
        · exact .inr (.inl rfl)
        · exact behind.isNumeric c later
  | fraction behind _ =>
      rcases List.mem_cons.mp member with rfl | later
      · exact .inr (.inl rfl)
      · exact behind.isNumeric c later

theorem Exponent.isNumeric {exponent : List Char} (power : Exponent exponent) :
    ∀ c ∈ exponent, IsNumeric c := by
  intro c member
  have mark {c : Char} (marked : c = 'E' ∨ c = 'e') : IsNumeric c := by
    rcases marked with rfl | rfl
    · exact .inr (.inr (.inl rfl))
    · exact .inr (.inr (.inr (.inl rfl)))
  cases power with
  | absent => simp at member
  | power marked run _ =>
      rcases List.mem_cons.mp member with rfl | later
      · exact mark marked
      · exact run.isNumeric c later
  | negative marked run _ =>
      rcases List.mem_cons.mp member with rfl | later
      · exact mark marked
      · rcases List.mem_cons.mp later with rfl | digit
        · exact .inr (.inr (.inr (.inr rfl)))
        · exact run.isNumeric c digit

theorem Number.isNumeric {word : List Char} (number : Number word) : ∀ c ∈ word, IsNumeric c := by
  intro c member
  have unsigned {mantissa exponent : List Char} (digits : Mantissa mantissa)
      (power : Exponent exponent) (inside : c ∈ mantissa ++ exponent) : IsNumeric c :=
    (List.mem_append.mp inside).elim (digits.isNumeric c) (power.isNumeric c)
  cases number with
  | positive digits power => exact unsigned digits power member
  | negative digits power =>
      rcases List.mem_cons.mp member with rfl | later
      · exact .inr (.inr (.inr (.inr rfl)))
      · exact unsigned digits power later

theorem Number.ne_nil {word : List Char} (number : Number word) : word ≠ [] := by
  rintro rfl
  have numeral := isNumeral_of_number number
  exact absurd numeral (by decide)

theorem isDigit_bounds {c : Char} (digit : c.isDigit = true) : 48 ≤ c.toNat ∧ c.toNat ≤ 57 := by
  simpa [Char.isDigit, UInt32.le_iff_toNat_le] using digit

theorem ne_of_isDigit {c other : Char} (digit : c.isDigit = true) (strange : other.isDigit = false) :
    c ≠ other := by
  rintro rfl
  rw [digit] at strange
  contradiction

theorem IsNumeric.endsWord_eq {c : Char} (numeric : IsNumeric c) : endsWord c = false := by
  rcases numeric with digit | rfl | rfl | rfl | rfl
  · have bounds := isDigit_bounds digit
    have dark : isWhiteSpace c = false := by
      simp only [isWhiteSpace, Bool.or_eq_false_iff, Bool.and_eq_false_iff, decide_eq_false_iff_not,
        beq_eq_false_iff_ne]
      omega
    simp [endsWord, dark, ne_of_isDigit digit]
  · rfl
  · rfl
  · rfl
  · rfl

theorem IsNumeric.isBlank_eq {c : Char} (numeric : IsNumeric c) : isBlank c = false := by
  rcases numeric with digit | rfl | rfl | rfl | rfl
  · simp [isBlank, ne_of_isDigit digit]
  · rfl
  · rfl
  · rfl
  · rfl

def byteOf (c : Char) : UInt8 :=
  if c = '.' then 0x1a
  else if c = 'E' ∨ c = 'e' then 0x1b
  else if c = '-' then 0x1c
  else 0x10 + UInt8.ofNat (c.toNat - '0'.toNat)

theorem IsNumeric.numberByte?_eq {c : Char} (numeric : IsNumeric c) :
    ByteCode.numberByte? c = some (byteOf c) := by
  rcases numeric with digit | rfl | rfl | rfl | rfl
  · simp [ByteCode.numberByte?, ByteCode.digitBase, byteOf, digit, ne_of_isDigit digit]
  · rfl
  · rfl
  · rfl
  · rfl

theorem numberBytesFrom_eq {word : List Char} (numeric : ∀ c ∈ word, IsNumeric c) (index : Nat) :
    ByteCode.numberBytesFrom index word = .ok (word.map byteOf) := by
  induction word generalizing index with
  | nil => rfl
  | cons c word ih =>
      have first := (numeric c (by simp)).numberByte?_eq
      have later := ih (fun d member => numeric d (by simp [member])) (index + 1)
      simp [ByteCode.numberBytesFrom, first, later]

theorem number_of_isNumeric {token : Token} {lexeme : String} (kind : token.kind = .number lexeme)
    (numeric : ∀ c ∈ lexeme.toList, IsNumeric c) :
    ByteCode.number token = .ok (lexeme.toList.map byteOf) := by
  simp only [ByteCode.number, kind, numberBytesFrom_eq numeric]

end Numeral

end Calculator
