import Calculator.Fault

/-! The byte code of numbers: one byte for each character. -/

namespace Calculator.ByteCode

def digitBase : UInt8 := 0x10

def decimalPoint : UInt8 := 0x1a

def exponentMark : UInt8 := 0x1b

def negate : UInt8 := 0x1c

def numberByte? (c : Char) : Option UInt8 :=
  if c.isDigit then some (digitBase + UInt8.ofNat (c.toNat - '0'.toNat))
  else if c = '.' then some decimalPoint
  else if c = 'E' ∨ c = 'e' then some exponentMark
  else if c = '-' then some negate
  else none

def numberBytesFrom (index : Nat) : List Char → Except (Char × Nat) (List UInt8)
  | [] => .ok []
  | c :: rest =>
      match numberByte? c with
      | none => .error (c, index)
      | some byte =>
          match numberBytesFrom (index + 1) rest with
          | .ok bytes => .ok (byte :: bytes)
          | .error strange => .error strange

def number (token : Token) : Except Fault (List UInt8) :=
  match token.kind with
  | .number lexeme =>
      match numberBytesFrom 0 lexeme.toList with
      | .ok bytes => .ok bytes
      | .error (c, index) => .error (.strangeDigit c index lexeme token.span)
  | _ => .error (.literalExpected .number token)

end Calculator.ByteCode
