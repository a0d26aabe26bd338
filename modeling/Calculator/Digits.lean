/-! Digit characters and the numerals they form, in any base up to sixteen. -/

namespace Calculator

def digit? (base : Nat) (c : Char) : Option Nat :=
  let value :=
    if '0' ≤ c ∧ c ≤ '9' then some (c.toNat - '0'.toNat)
    else if 'a' ≤ c ∧ c ≤ 'f' then some (c.toNat - 'a'.toNat + 10)
    else if 'A' ≤ c ∧ c ≤ 'F' then some (c.toNat - 'A'.toNat + 10)
    else none
  value.filter (· < base)

def leadingDigits (base : Nat) : Nat → List Char → List Nat
  | limit + 1, c :: rest =>
      match digit? base c with
      | some value => value :: leadingDigits base limit rest
      | none => []
  | _, _ => []

def numeralValue (base : Nat) (digits : List Nat) : Nat :=
  digits.foldl (fun value digit => base * value + digit) 0

def hexDigit (value : Nat) : Char :=
  if value < 10 then Char.ofNat ('0'.toNat + value) else Char.ofNat ('A'.toNat + (value - 10))

end Calculator
