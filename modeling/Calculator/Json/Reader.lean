import Calculator.Digits
import Calculator.Json.Basic

/-! Reading JSON text. The grammar is strict: no comments, no trailing commas, no raw control characters
in strings, no leading zeros. -/

namespace Calculator.Json

def isBlank (c : Char) : Bool := c == ' ' || c == '\t' || c == '\r' || c == '\n'

def skipBlanks (text : List Char) : List Char := text.dropWhile isBlank

def escaped? (c : Char) : Option Nat :=
  match c with
  | '"' => some 0x22
  | '\\' => some 0x5c
  | '/' => some 0x2f
  | 'b' => some 0x08
  | 'f' => some 0x0c
  | 'n' => some 0x0a
  | 'r' => some 0x0d
  | 't' => some 0x09
  | _ => none

def quad? (a b c d : Char) : Option Nat :=
  match leadingDigits 16 4 [a, b, c, d] with
  | [a, b, c, d] => some (numeralValue 16 [a, b, c, d])
  | _ => none

/-- The number that an escape stands for and its length. The backslash stands just before the text. -/
def escapeAt? : List Char → Option (Nat × Nat)
  | [] => none
  | mark :: rest =>
      if mark = 'u' then
        match rest with
        | a :: b :: c :: d :: _ => (quad? a b c d).map fun unit => (unit, 5)
        | _ => none
      else (escaped? mark).map fun unit => (unit, 1)

def unitAt? (c : Char) (rest : List Char) : Option (Nat × Nat) :=
  if c = '\\' then escapeAt? rest
  else if c.toNat < 0x20 then none
  else some (c.toNat, 0)

def readUnits : List Char → Option (List Nat × List Char)
  | [] => none
  | c :: rest =>
      if c = '"' then some ([], rest)
      else
        match unitAt? c rest with
        | none => none
        | some (unit, more) => (readUnits (rest.drop more)).map fun (units, rest) => (unit :: units, rest)
termination_by text => text.length
decreasing_by
  simp only [List.length_drop, List.length_cons]
  omega

def isLeadingHalf (unit : Nat) : Bool := 0xd800 ≤ unit && unit < 0xdc00

def isTrailingHalf (unit : Nat) : Bool := 0xdc00 ≤ unit && unit < 0xe000

/-- The characters that units spell. Two halves in the right order are one character; any other half
spells nothing. -/
def assemble : List Nat → Option (List Char)
  | [] => some []
  | [unit] =>
      if isLeadingHalf unit || isTrailingHalf unit then none else some [Char.ofNat unit]
  | unit :: next :: rest =>
      if isLeadingHalf unit && isTrailingHalf next then
        (assemble rest).map (Char.ofNat (0x10000 + 0x400 * (unit - 0xd800) + (next - 0xdc00)) :: ·)
      else if isLeadingHalf unit || isTrailingHalf unit then none
      else (assemble (next :: rest)).map (Char.ofNat unit :: ·)

def readString (text : List Char) : Option (Text × List Char) :=
  (readUnits text).map fun (units, rest) => ((assemble units).map String.ofList, rest)

def readDigits (text : List Char) : Option (List Char × List Char) :=
  match text.takeWhile Char.isDigit with
  | [] => none
  | digits => some (digits, text.dropWhile Char.isDigit)

def readFraction : List Char → Option (List Char × List Char)
  | '.' :: rest => readDigits rest
  | text => some ([], text)

def readExponent : List Char → Option (Option Int × List Char)
  | c :: rest =>
      if c = 'e' ∨ c = 'E' then
        let (negative, rest) :=
          match rest with
          | '-' :: rest => (true, rest)
          | '+' :: rest => (false, rest)
          | rest => (false, rest)
        (readDigits rest).map fun (digits, rest) =>
          let magnitude : Int := Nat.ofDigitChars 10 digits 0
          (some (if negative then -magnitude else magnitude), rest)
      else some (none, c :: rest)
  | [] => some (none, [])

def readNumber (text : List Char) : Option (Number × List Char) := do
  let (negative, rest) :=
    match text with
    | '-' :: rest => (true, rest)
    | rest => (false, rest)
  let (whole, rest) ← readDigits rest
  if whole.head? = some '0' ∧ whole.length ≠ 1 then none
  else
    let (fraction, rest) ← readFraction rest
    let (exponent, rest) ← readExponent rest
    some (⟨negative, whole, fraction, exponent⟩, rest)

def readWord? (text : List Char) : Option (Json Text × List Char) :=
  if ['n', 'u', 'l', 'l'].isPrefixOf text then some (.null, text.drop 4)
  else if ['t', 'r', 'u', 'e'].isPrefixOf text then some (.bool true, text.drop 4)
  else if ['f', 'a', 'l', 's', 'e'].isPrefixOf text then some (.bool false, text.drop 5)
  else none

def readScalar (text : List Char) : Option (Json Text × List Char) :=
  match readWord? text with
  | some found => some found
  | none => (readNumber text).map fun (value, rest) => (.number value, rest)

def readKey (text : List Char) : Option (Text × List Char) :=
  match skipBlanks text with
  | '"' :: rest =>
      match readString rest with
      | none => none
      | some (key, rest) =>
          match skipBlanks rest with
          | ':' :: rest => some (key, rest)
          | _ => none
  | _ => none

mutual

/-- The value a text starts with, after blanks. The fuel bounds the number of nested calls. -/
def readValue : Nat → List Char → Option (Json Text × List Char)
  | 0, _ => none
  | fuel + 1, text =>
      match skipBlanks text with
      | [] => none
      | c :: rest =>
          if c = '"' then (readString rest).map fun (text, rest) => (.string text, rest)
          else if c = '[' then
            match skipBlanks rest with
            | ']' :: rest => some (.array [], rest)
            | rest => (readItems fuel rest).map fun (items, rest) => (.array items, rest)
          else if c = '\x7b' then
            match skipBlanks rest with
            | '\x7d' :: rest => some (.object [], rest)
            | rest => (readFields fuel rest).map fun (fields, rest) => (.object fields, rest)
          else readScalar (c :: rest)

def readItems : Nat → List Char → Option (List (Json Text) × List Char)
  | 0, _ => none
  | fuel + 1, text =>
      match readValue fuel text with
      | none => none
      | some (item, rest) =>
          match skipBlanks rest with
          | ']' :: rest => some ([item], rest)
          | ',' :: rest => (readItems fuel rest).map fun (items, rest) => (item :: items, rest)
          | _ => none

def readFields : Nat → List Char → Option (List (Text × Json Text) × List Char)
  | 0, _ => none
  | fuel + 1, text =>
      match readKey text with
      | none => none
      | some (key, rest) =>
          match readValue fuel rest with
          | none => none
          | some (value, rest) =>
              match skipBlanks rest with
              | '\x7d' :: rest => some ([(key, value)], rest)
              | ',' :: rest => (readFields fuel rest).map fun (fields, rest) => ((key, value) :: fields, rest)
              | _ => none

end

/-- The document a text holds, with nothing but blanks around it. Every nested call but the one for an
item's or a field's value has passed a character, so twice the length is fuel enough. -/
def parse? (text : List Char) : Option (Json Text) :=
  match readValue (2 * text.length + 2) text with
  | some (json, rest) => if skipBlanks rest = [] then some json else none
  | none => none

end Calculator.Json
