import Calculator.Alpha.Reading
import Calculator.Diagnostic
import Calculator.Token

/-! What can be wrong with a program, each with its code, its place and its wording. -/

namespace Calculator

inductive Literal
  | number
  | text
deriving DecidableEq

def Literal.name : Literal → String
  | number => "Number"
  | text => "Text"

inductive Fault
  | unsupportedStatement (token : Token)
  /-- Another token stands where a literal has to be. -/
  | literalExpected (literal : Literal) (token : Token)
  | trailingToken (token : Token)
  | unterminatedText (span : Span)
  | operandOutOfRange (digits : String) (span : Span)
  /-- A character at an index of a number cannot be part of one. -/
  | strangeDigit (c : Char) (index : Nat) (lexeme : String) (span : Span)
  /-- A text literal cannot be read as codes. -/
  | unreadableText (error : Alpha.ReadError) (token : Token)
  /-- A text literal has more codes than there is room for. -/
  | textTooLong (room excess : Nat) (token : Token)
deriving DecidableEq

namespace Fault

def code : Fault → UInt16
  | unsupportedStatement _ => 100
  | literalExpected _ _ => 100
  | trailingToken _ => 100
  | unterminatedText _ => 101
  | operandOutOfRange _ _ => 102
  | strangeDigit _ _ _ _ => 103
  | unreadableText error _ =>
      match error.problem with
      | .malformed _ => 200
      | .unsupported _ => 201
  | textTooLong _ _ _ => 300

/-- The place to mend. Inside a text literal the opening quote comes first. -/
def span : Fault → Span
  | unsupportedStatement token => token.span
  | literalExpected _ token => token.span
  | trailingToken token => token.span
  | unterminatedText span => span
  | operandOutOfRange _ span => span
  | strangeDigit _ index _ span => span.columnAt index
  | unreadableText error token => token.span.columnAt (1 + error.offending)
  | textTooLong _ _ token => token.span

def complaint : Fault → String
  | unsupportedStatement token => "Unsupported statement \"" ++ token.kind.render ++ "\""
  | literalExpected literal token => literal.name ++ " expected \"" ++ token.kind.render ++ "\""
  | trailingToken token => "Unexpected \"" ++ token.kind.render ++ "\""
  | unterminatedText _ => "Unterminated text literal starting"
  | operandOutOfRange digits _ => "Integer " ++ digits ++ " out of range"
  | strangeDigit c _ lexeme _ => "Invalid character " ++ String.singleton c ++ " in number " ++ lexeme
  | unreadableText error token => error.message ++ " of text " ++ token.kind.render
  | textTooLong room excess _ =>
      "Text could not be more than " ++ toString room ++ " characters, " ++ toString excess ++ " too many"

def message (fault : Fault) : String := fault.complaint ++ " at " ++ fault.span.text

def report (fault : Fault) (line? : Option String) : Diagnostic :=
  .ofCode fault.code fault.message fault.span (line?.getD "")

end Fault

end Calculator
