import Calculator.Digits
import Calculator.Alpha.Symbol

/-! Escape sequences: a code written as a numeral, or a masked character, behind the introducer. -/

namespace Calculator.Alpha

def introducer : Char := '\x60'

inductive Radix
  | hexadecimal
  | binary
deriving DecidableEq

namespace Radix

def base : Radix → Nat
  | hexadecimal => 16
  | binary => 2

def maxDigits : Radix → Nat
  | hexadecimal => 2
  | binary => 8

def name : Radix → String
  | hexadecimal => "hexadecimal"
  | binary => "binary"

def ofLetter? (c : Char) : Option Radix :=
  if c = 'x' ∨ c = 'X' then some hexadecimal
  else if c = 'b' ∨ c = 'B' then some binary
  else none

end Radix

inductive Defect
  | nothingFollows
  | unknownFollower
  | noDigits (radix : Radix)
  | notADigit (radix : Radix) (c : Char)
deriving DecidableEq

namespace Defect

/-- How far behind the introducer the character stands that has to be changed. -/
def offset : Defect → Nat
  | nothingFollows => 0
  | unknownFollower => 1
  | noDigits _ => 1
  | notADigit _ _ => 2

def detail : Defect → String
  | nothingFollows => "Invalid escape sequence"
  | unknownFollower => "Invalid escape sequence"
  | noDigits radix => "Invalid " ++ radix.name ++ " escape sequence"
  | notADigit radix c =>
      "Invalid character " ++ String.singleton c ++ " in " ++ radix.name ++ " escape sequence"

end Defect

def readNumeral (radix : Radix) (text : List Char) : Except Defect Piece :=
  match leadingDigits radix.base radix.maxDigits text, text with
  | [], [] => .error (.noDigits radix)
  | [], c :: _ => .error (.notADigit radix c)
  | digits, _ => .ok ⟨UInt8.ofNat (numeralValue radix.base digits), 2 + digits.length⟩

/-- The decimal numeral behind the introducer. Of three digits the last is left in place when a byte
cannot hold the value. -/
def readDecimal? (text : List Char) : Option Piece :=
  match leadingDigits 10 3 text with
  | [] => none
  | digits =>
      let kept := if numeralValue 10 digits ≤ 255 then digits else digits.dropLast
      some ⟨UInt8.ofNat (numeralValue 10 kept), 1 + kept.length⟩

/-- The escape sequence whose introducer stands just before the text. Its width counts the
introducer. -/
def readEscape : List Char → Except Defect Piece
  | [] => .error .nothingFollows
  | c :: rest =>
      match Radix.ofLetter? c, readDecimal? (c :: rest) with
      | some radix, _ => readNumeral radix rest
      | none, some piece => .ok piece
      | none, none =>
          if isMasked c then .ok ⟨UInt8.ofNat c.toNat, 2⟩ else .error .unknownFollower

end Calculator.Alpha
