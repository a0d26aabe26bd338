import Calculator.Proofs.Json.Document

/-! Integers as JSON numbers: they are well formed, finite as far as 53 bits go, and keep their value. -/

namespace Calculator.Json

namespace Number

theorem length_toDigits_of_zero {value : Nat} (padded : (Nat.toDigits 10 value).head? = some '0') :
    (Nat.toDigits 10 value).length = 1 := by
  induction value using Nat.strongRecOn with
  | ind value ih =>
      rw [Nat.toDigits_eq_if (by decide)] at padded ⊢
      split at padded
      · next small => simp [small]
      · next large =>
          -- the leading digits would stand for zero, yet there are at least ten tens
          rw [List.head?_append_of_ne_nil _ Nat.toDigits_ne_nil] at padded
          have single := ih (value / 10) (by omega) padded
          obtain ⟨c, only⟩ := List.length_eq_one_iff.mp single
          have back := Nat.ofDigitChars_ten_toDigits (n := value / 10)
          simp only [only, List.head?_cons, Option.some.injEq] at padded
          have zero : Nat.ofDigitChars 10 ['0'] 0 = 0 := by decide
          rw [only, padded, zero] at back
          omega

theorem wellFormed_ofInt (value : Int) : (ofInt value).WellFormed := by
  refine ⟨toDigits_digits _, Nat.toDigits_ne_nil, length_toDigits_of_zero, ?_⟩
  intro c member
  simp [ofInt] at member

theorem toInt?_ofInt (value : Int) : (ofInt value).toInt? = some value := by
  have legible : decide (value < 0) = true → value.natAbs ≠ 0 := by
    rw [decide_eq_true_eq]
    omega
  have signed : (if decide (value < 0) = true then -(value.natAbs : Int) else value.natAbs) = value := by
    simp only [decide_eq_true_eq]
    omega
  simp only [ofInt, toInt?, Nat.ofDigitChars_ten_toDigits]
  rw [if_pos ⟨trivial, trivial, legible⟩, signed]

theorem le_ofDigitChars (digits : List Char) (value : Nat) : value ≤ Nat.ofDigitChars 10 digits value := by
  rw [Nat.ofDigitChars_eq_ofDigitChars_zero]
  have grows : 1 * value ≤ 10 ^ digits.length * value :=
    Nat.mul_le_mul_right value (Nat.one_le_pow _ _ (by decide))
  omega

theorem absorb_eq (digits : List Char) (value : Nat)
    (small : Nat.ofDigitChars 10 digits value < UInt64.size) :
    absorb value digits = (Nat.ofDigitChars 10 digits value, 0) := by
  induction digits generalizing value with
  | nil => simp [absorb]
  | cons c digits ih =>
      rw [Nat.ofDigitChars_cons] at small ⊢
      have bound := le_ofDigitChars digits (10 * value + (c.toNat - '0'.toNat))
      have fits : 10 * value + (c.toNat - '0'.toNat) < UInt64.size := by omega
      simp only [absorb, fits, if_true]
      exact ih _ small

theorem roundToDouble_of_lt {value : Nat} (small : value < 2 ^ 53) : roundToDouble value = value := by
  have bits : value.log2 + 1 - 53 = 0 := by
    by_cases zero : value = 0
    · simp [zero]
    · have short := (Nat.log2_lt zero).mpr small
      omega
  simp [roundToDouble, bits, Nat.mod_one]

/-- An integer of at most 53 bits is a finite double. -/
theorem isFinite_ofInt {value : Nat} (small : value < 2 ^ 53) : (ofInt value).isFinite = true := by
  have digits : Nat.ofDigitChars 10 (Nat.toDigits 10 value) 0 = value := Nat.ofDigitChars_ten_toDigits
  have whole : absorb 0 (Nat.toDigits 10 value) = (value, 0) := by
    have room : (2 : Nat) ^ 53 ≤ UInt64.size := by decide
    have absorbed := absorb_eq (Nat.toDigits 10 value) 0 (by omega)
    rwa [digits] at absorbed
  have scaled : (ofInt value).scaled = (value, 0) := by
    simp [Number.scaled, ofInt, whole, absorb]
  have one : roundToDouble (Nat.pow 10 0) = 1 := roundToDouble_of_lt (by decide)
  have room : (2 : Nat) ^ 53 ≤ Nat.pow 2 1024 - Nat.pow 2 970 := by decide +kernel
  simp only [isFinite, scaled, Int.toNat_zero, one, roundToDouble_of_lt small, Bool.or_eq_true,
    Bool.and_eq_true, decide_eq_true_eq]
  exact .inr ⟨by omega, by omega⟩

end Number

theorem wellFormed_ofNat (value : Nat) : WellFormed (ofNat value) := .number (Number.wellFormed_ofInt value)

@[simp] theorem asRead_ofNat (value : Nat) : (ofNat value).asRead = ofNat value := by
  rw [ofNat, asRead, ofNat]

@[simp] theorem asRead_ofInt (value : Int) : (ofInt value).asRead = ofInt value := by
  rw [ofInt, asRead, ofInt]

theorem toNat?_ofNat {value limit : Nat} (bound : value ≤ limit) :
    (ofNat value : Json Text).toNat? limit = some value := by
  have same : (ofNat value : Json Text).toInt? = some (.ofNat value) := Number.toInt?_ofInt value
  simp [toNat?, same, bound]

theorem isPlain_ofNat {value : Nat} (small : value < 2 ^ 53) (depth : Nat) :
    isPlain depth (ofNat value) = true := by
  rw [ofNat, isPlain]
  exact Number.isFinite_ofInt small

end Calculator.Json
