/-! JSON documents, as far as records need them: the tree of values with every number as written. -/

namespace Calculator

/-- A number as it is written: whole digits, the digits behind the point, and the power of ten. -/
structure Json.Number where
  negative : Bool
  whole : List Char
  fraction : List Char
  exponent : Option Int
deriving DecidableEq

/-- What a string literal that is read spells. One with half of a surrogate pair spells no text. -/
abbrev Json.Text := Option String

inductive Json (τ : Type)
  | null
  | bool (value : Bool)
  | number (value : Json.Number)
  | string (text : τ)
  | array (items : List (Json τ))
  | object (fields : List (τ × Json τ))

namespace Json

namespace Number

def ofInt (value : Int) : Number := ⟨value < 0, Nat.toDigits 10 value.natAbs, [], none⟩

/-- The value of an integer. A fraction or a power of ten makes a number no integer, and so does the
sign of a negative zero. -/
def toInt? (number : Number) : Option Int :=
  let magnitude : Nat := Nat.ofDigitChars 10 number.whole 0
  if number.fraction = [] ∧ number.exponent = none ∧ (number.negative → magnitude ≠ 0) then
    some (if number.negative then -magnitude else magnitude)
  else none

/-- The value of as many digits as 64 bits can hold behind the value so far, and the number of digits
left over. -/
def absorb : Nat → List Char → Nat × Nat
  | value, [] => (value, 0)
  | value, c :: rest =>
      let next := 10 * value + (c.toNat - '0'.toNat)
      if next < UInt64.size then absorb next rest else (value, rest.length + 1)

/-- The number without its sign as an integer of 64 bits times a power of ten. Whole digits that do not
fit count towards the power, those of the fraction are dropped. -/
def scaled (number : Number) : Nat × Int :=
  let (whole, spilled) := absorb 0 number.whole
  let (value, dropped) := absorb whole number.fraction
  (value, spilled - (number.fraction.length - dropped : Nat) + number.exponent.getD 0)

/-- The nearest integer with 53 significant bits; of two, the one with the even significand. -/
def roundToDouble (value : Nat) : Nat :=
  let unit := Nat.pow 2 (value.log2 + 1 - 53)
  let kept := value / unit
  let lost := value % unit
  if unit < 2 * lost ∨ (2 * lost = unit ∧ kept % 2 = 1) then (kept + 1) * unit else kept * unit

/-- The number does not exceed the finite binary64 numbers, where the integer, the power of ten and
their product are rounded one after another. -/
def isFinite (number : Number) : Bool :=
  let (value, exponent) := number.scaled
  value = 0 || exponent < 0 ||
    (exponent ≤ 308 &&
      roundToDouble value * roundToDouble (Nat.pow 10 exponent.toNat) <
        Nat.pow 2 1024 - Nat.pow 2 970)

end Number

variable {τ : Type}

def ofNat (value : Nat) : Json τ := .number (.ofInt value)

def ofInt (value : Int) : Json τ := .number (.ofInt value)

def toInt? : Json τ → Option Int
  | .number value => value.toInt?
  | _ => none

def toNat? (limit : Nat) (json : Json τ) : Option Nat :=
  match json.toInt? with
  | some (.ofNat value) => if value ≤ limit then some value else none
  | _ => none

def toText? : Json Text → Option String
  | .string text => text
  | _ => none

def isNull : Json τ → Bool
  | .null => true
  | _ => false

def valuesOf (key : String) (fields : List (Text × Json Text)) : List (Json Text) :=
  fields.filterMap fun field => if field.1 = some key then some field.2 else none

def required? (key : String) (fields : List (Text × Json Text)) : Option (Json Text) :=
  match valuesOf key fields with
  | [value] => some value
  | _ => none

mutual

def isPlain : Nat → Json Text → Bool
  | _, .null => true
  | _, .bool _ => true
  | _, .number value => value.isFinite
  | _, .string text => text.isSome
  | 0, .array _ => false
  | 0, .object _ => false
  | depth + 1, .array items => itemsPlain depth items
  | depth + 1, .object fields => fieldsPlain depth fields

def itemsPlain : Nat → List (Json Text) → Bool
  | _, [] => true
  | depth, item :: items => isPlain depth item && itemsPlain depth items

def fieldsPlain : Nat → List (Text × Json Text) → Bool
  | _, [] => true
  | depth, (key, value) :: fields => key.isSome && isPlain depth value && fieldsPlain depth fields

end

end Json

end Calculator
