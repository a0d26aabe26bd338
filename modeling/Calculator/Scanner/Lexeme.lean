import Calculator.Token

/-! The words and marks a program line is made of, wherever they stand in the text. -/

namespace Calculator

/-- The Unicode property White_Space. -/
def isWhiteSpace (c : Char) : Bool :=
  let value := c.toNat
  (0x09 ≤ value && value ≤ 0x0d) || value == 0x20 || value == 0x85 || value == 0xa0 || value == 0x1680 ||
    (0x2000 ≤ value && value ≤ 0x200a) || value == 0x2028 || value == 0x2029 || value == 0x202f ||
    value == 0x205f || value == 0x3000

def isBlank (c : Char) : Bool := c == ' ' || c == '\t' || c == '\r'

def endsWord (c : Char) : Bool := isWhiteSpace c || c == ',' || c == '"'

namespace Numeral

def dropSign : List Char → List Char
  | '-' :: rest => rest
  | text => text

def dropDigits (text : List Char) : List Char := text.dropWhile Char.isDigit

def startsWithDigit : List Char → Bool
  | c :: _ => c.isDigit
  | [] => false

def dropFraction : List Char → List Char
  | '.' :: rest => dropDigits rest
  | text => text

/-- A power of ten needs a digit behind its mark and sign; without one it is left in place. -/
def dropExponent : List Char → List Char
  | c :: rest =>
      if (c = 'E' ∨ c = 'e') ∧ startsWithDigit (dropSign rest) then dropDigits (dropSign rest) else c :: rest
  | [] => []

/-- A sign may precede the digits, or the point if a digit follows it. -/
def starts (text : List Char) : Bool :=
  match dropSign text with
  | '.' :: rest => startsWithDigit rest
  | text => startsWithDigit text

end Numeral

def isNumeral (word : List Char) : Bool :=
  Numeral.starts word &&
    Numeral.dropExponent (Numeral.dropFraction (Numeral.dropDigits (Numeral.dropSign word))) == []

/-- What is wrong with a lexeme that is nevertheless taken for a token. -/
inductive Flaw
  /-- A text literal without its closing quote. -/
  | unterminated
  /-- Digits whose value an operand cannot hold. -/
  | outOfRange
deriving DecidableEq

structure Lexeme where
  text : List Char
  kind : Token.Kind
  flaw : Option Flaw

namespace Lexeme

def maxOperand : Nat := 32767

/-- The token of a whole word. Only the first one of a line can be a number; later digits are an
operand, which is zero if it is out of range. -/
def ofWord (first : Bool) (word : List Char) : Lexeme :=
  if first && isNumeral word then ⟨word, .number (.ofList word), none⟩
  else if word ≠ [] ∧ word.all Char.isDigit then
    let value := Nat.ofDigitChars 10 word 0
    if value ≤ maxOperand then ⟨word, .integer (.ofNat value), none⟩
    else ⟨word, .integer 0, some .outOfRange⟩
  else if word = ['I', 'N', 'D'] then ⟨word, .indirect, none⟩
  else
    match word with
    | [c] => if c.isAlpha then ⟨word, .letter c, none⟩ else ⟨word, .identifier (.ofList word), none⟩
    | _ => ⟨word, .identifier (.ofList word), none⟩

/-- The text literal whose opening quote stands just before the text. It ends at the next quote, or
unfinished at the end of the line. -/
def ofQuoted (text : List Char) : Lexeme :=
  let content := text.takeWhile fun c => c != '"' && c != '\n'
  match text.dropWhile fun c => c != '"' && c != '\n' with
  | '"' :: _ => ⟨'"' :: content ++ ['"'], .text (.ofList content), none⟩
  | _ => ⟨'"' :: content, .text (.ofList content), some .unterminated⟩

def read (first : Bool) (c : Char) (rest : List Char) : Lexeme :=
  if c = '/' ∧ rest.head? = some '/' then ⟨(c :: rest).takeWhile (· != '\n'), .comment, none⟩
  else if c = '"' then ofQuoted rest
  else if c = '>' then ⟨[c], .append, none⟩
  else if c = ',' then ⟨[c], .comma, none⟩
  else ofWord first ((c :: rest).takeWhile fun c => !endsWord c)

end Lexeme

end Calculator
