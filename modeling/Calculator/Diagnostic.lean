import Calculator.Span

/-! Reports of what is wrong with a program. -/

namespace Calculator

inductive Category
  | grammar
  | encoding
  | capacity
deriving DecidableEq

namespace Category

def name : Category → String
  | grammar => "syntax"
  | encoding => "encoding"
  | capacity => "capacity"

def ofName? (name : String) : Option Category :=
  if name = "syntax" then some grammar
  else if name = "encoding" then some encoding
  else if name = "capacity" then some capacity
  else none

def ofCode (code : UInt16) : Category :=
  if 200 ≤ code ∧ code ≤ 299 then encoding
  else if 300 ≤ code ∧ code ≤ 399 then capacity
  else grammar

end Category

/-- A report with the place it is about. The source line is empty where it is not known. -/
structure Diagnostic where
  code : UInt16
  category : Category
  message : String
  span : Span
  sourceLine : String
deriving DecidableEq

namespace Diagnostic

def codeName (code : UInt16) : String := "E" ++ toString code

def ofCode (code : UInt16) (message : String) (span : Span) (sourceLine : String) : Diagnostic :=
  ⟨code, .ofCode code, message, span, sourceLine⟩

def render (diagnostic : Diagnostic) : String :=
  diagnostic.span.text ++ ": " ++ codeName diagnostic.code ++ " [" ++ diagnostic.category.name ++ "] " ++
    diagnostic.message

end Diagnostic

end Calculator
