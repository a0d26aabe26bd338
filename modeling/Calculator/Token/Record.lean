import Calculator.Token
import Calculator.Json.Reader
import Calculator.Json.Writer
import Calculator.Span.Record

/-! The JSON form of tokens. A record may also be given as the array of its fields in order. -/

namespace Calculator.Token

namespace Kind

def ofName? (name : String) : Option Kind :=
  if name = "Indirect" then some indirect
  else if name = "Comma" then some comma
  else if name = "Append" then some append
  else if name = "Comment" then some comment
  else if name = "EndOfLine" then some endOfLine
  else none

def ofContent? (name : String) (content : Json Json.Text) : Option Kind :=
  if name = "Identifier" then content.toText?.map identifier
  else if name = "Number" then content.toText?.map number
  else if name = "Text" then content.toText?.map text
  else if name = "Integer" then
    content.toInt?.bind fun value =>
      if -32768 ≤ value ∧ value < 32768 then some (integer (.ofInt value)) else none
  else if name = "Letter" then
    content.toText?.bind fun content =>
      match content.toList with
      | [c] => some (letter c)
      | _ => none
  else none

def toJson : Kind → Json String
  | identifier name => .object [("Identifier", .string name)]
  | integer value => .object [("Integer", .ofInt value.toInt)]
  | letter c => .object [("Letter", .string (String.singleton c))]
  | indirect => .string "Indirect"
  | comma => .string "Comma"
  | append => .string "Append"
  | number lexeme => .object [("Number", .string lexeme)]
  | text content => .object [("Text", .string content)]
  | comment => .string "Comment"
  | endOfLine => .string "EndOfLine"

/-- A kind without content is its name, or an object with that name as the only key and nothing as its
value; any other kind is an object of its name and its content. -/
def ofJson? : Json Json.Text → Option Kind
  | .string (some name) => ofName? name
  | .object [(some name, content)] =>
      match ofName? name with
      | some kind => if content.isNull then some kind else none
      | none => ofContent? name content
  | _ => none

end Kind

/-- Every key is a text. The values of keys that mean nothing here do not matter. -/
def keysLegible (fields : List (Json.Text × Json Json.Text)) : Bool := fields.all fun field => field.1.isSome

def spanOfJson? : Json Json.Text → Option Span
  | .object fields => if keysLegible fields then Span.ofFields? fields else none
  | .array [startLine, startColumn, endLine, endColumn] =>
      Span.ofNumbers? startLine startColumn endLine endColumn
  | _ => none

def toJson (token : Token) : Json String :=
  .object [("kind", token.kind.toJson), ("span", .object token.span.toFields)]

def ofParts? (kind span : Json Json.Text) : Option Token := do
  let kind ← Kind.ofJson? kind
  let span ← spanOfJson? span
  some ⟨kind, span⟩

def ofJson? : Json Json.Text → Option Token
  | .object fields =>
      if keysLegible fields then do
        let kind ← Json.required? "kind" fields
        let span ← Json.required? "span" fields
        ofParts? kind span
      else none
  | .array [kind, span] => ofParts? kind span
  | _ => none

def write (token : Token) : List Char := token.toJson.write

def parse? (text : List Char) : Option Token := (Json.parse? text).bind ofJson?

end Calculator.Token
