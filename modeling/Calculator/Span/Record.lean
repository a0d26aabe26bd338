import Calculator.Span
import Calculator.Json.Basic

/-! The JSON form of spans. -/

namespace Calculator.Span

def toFields (span : Span) : List (String × Json String) :=
  [ ("line", .ofNat span.startLine.toNat), ("column", .ofNat span.startColumn.toNat),
    ("end_line", .ofNat span.endLine.toNat), ("end_column", .ofNat span.endColumn.toNat) ]

def ofNumbers? (startLine startColumn endLine endColumn : Json Json.Text) : Option Span := do
  let startLine ← startLine.toNat? limit
  let startColumn ← startColumn.toNat? limit
  let endLine ← endLine.toNat? limit
  let endColumn ← endColumn.toNat? limit
  some ⟨.ofNat startLine, .ofNat startColumn, .ofNat endLine, .ofNat endColumn⟩

def ofFields? (fields : List (Json.Text × Json Json.Text)) : Option Span := do
  let startLine ← Json.required? "line" fields
  let startColumn ← Json.required? "column" fields
  let endLine ← Json.required? "end_line" fields
  let endColumn ← Json.required? "end_column" fields
  ofNumbers? startLine startColumn endLine endColumn

end Calculator.Span
