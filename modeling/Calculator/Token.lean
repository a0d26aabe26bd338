import Calculator.Span

/-! The tokens of a program line. -/

namespace Calculator

inductive Token.Kind
  /-- A mnemonic or a label name. -/
  | identifier (name : String)
  /-- The number of a register or flag. -/
  | integer (value : Int16)
  /-- A one-letter operand: a stack register or a local label. -/
  | letter (c : Char)
  /-- The word that makes an operand indirect. -/
  | indirect
  | comma
  /-- The mark before a text that is appended to the alpha register. -/
  | append
  /-- A number at the start of a line, as written. -/
  | number (lexeme : String)
  /-- A text between quotes, its escape sequences as written. -/
  | text (content : String)
  | comment
  | endOfLine
deriving DecidableEq

structure Token where
  kind : Token.Kind
  span : Span
deriving DecidableEq

namespace Token

namespace Kind

def name : Kind → String
  | identifier _ => "identifier"
  | integer _ => "integer"
  | letter _ => "letter"
  | indirect => "IND"
  | comma => "comma"
  | append => "append marker"
  | number _ => "number"
  | text _ => "text"
  | comment => "comment"
  | endOfLine => "end of line"

def render : Kind → String
  | identifier name => name
  | integer value => toString value.toInt
  | letter c => String.singleton c
  | indirect => "IND"
  | comma => ","
  | append => ">"
  | number lexeme => lexeme
  | text content => "\"" ++ content ++ "\""
  | comment => "//"
  | endOfLine => "end of line"

def endsStatement : Kind → Bool
  | comment => true
  | endOfLine => true
  | _ => false

end Kind

/-- The number an operand stands for. A letter stands for its character value in 16 signed bits. -/
def operand? (token : Token) : Option Int16 :=
  match token.kind with
  | .integer value => some value
  | .letter c => some c.val.toUInt16.toInt16
  | _ => none

def lexeme? (token : Token) : Option String :=
  match token.kind with
  | .identifier name => some name
  | .number lexeme => some lexeme
  | .text content => some content
  | _ => none

def isEndOfLine (token : Token) : Bool := token.kind == .endOfLine

end Token

end Calculator
