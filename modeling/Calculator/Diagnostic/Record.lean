import Calculator.Diagnostic
import Calculator.Json.Reader
import Calculator.Json.Writer
import Calculator.Span.Record

/-! The JSON form of diagnostics, for other tools. -/

namespace Calculator

/-- A category is its name, or an object with its name as the only key and nothing as its value. -/
def Category.ofJson? : Json Json.Text → Option Category
  | .string (some name) => ofName? name
  | .object [(some name, .null)] => ofName? name
  | _ => none

namespace Diagnostic

def codeLimit : Nat := UInt16.size - 1

def depthLimit : Nat := 127

def toJson (diagnostic : Diagnostic) : Json String :=
  .object <|
    [ ("code", .ofNat diagnostic.code.toNat),
      ("category", .string diagnostic.category.name),
      ("message", .string diagnostic.message) ] ++
    diagnostic.span.toFields ++
    if diagnostic.sourceLine.isEmpty then [] else [("source_line", .string diagnostic.sourceLine)]

def sourceLineOf? (fields : List (Json.Text × Json Json.Text)) : Option String :=
  match Json.valuesOf "source_line" fields with
  | [] => some ""
  | [value] => value.toText?
  | _ => none

/-- The diagnostic of a record. Keys that mean nothing here are passed over, but the whole document has
to be plain. -/
def ofJson? (json : Json Json.Text) : Option Diagnostic :=
  match json with
  | .object fields => do
      if Json.isPlain depthLimit json then
        let code ← (← Json.required? "code" fields).toNat? codeLimit
        let category ← Category.ofJson? (← Json.required? "category" fields)
        let message ← (← Json.required? "message" fields).toText?
        let span ← Span.ofFields? fields
        let sourceLine ← sourceLineOf? fields
        some ⟨.ofNat code, category, message, span, sourceLine⟩
      else none
  | _ => none

def write (diagnostic : Diagnostic) : List Char := diagnostic.toJson.write

def parse? (text : List Char) : Option Diagnostic := (Json.parse? text).bind ofJson?

end Diagnostic

end Calculator
