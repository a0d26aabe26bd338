import Calculator.Span

/-! The lines of a program text, and looking up what a span covers. -/

namespace Calculator

structure Listing where
  lines : List (List Char)

namespace Listing

/-- A line feed may be preceded by a carriage return, which then belongs to the terminator. -/
def dropReturn (line : List Char) : List Char :=
  if line.getLast? = some '\r' then line.dropLast else line

def ofText (text : List Char) : Listing := ⟨(text.splitOn '\n').map dropReturn⟩

def lineCount (listing : Listing) : Nat := listing.lines.length

def line? (listing : Listing) (number : UInt32) : Option (List Char) :=
  match number.toNat with
  | 0 => none
  | index + 1 => listing.lines[index]?

def charAt? (listing : Listing) (span : Span) : Option Char :=
  match span.startColumn.toNat with
  | 0 => none
  | index + 1 => (listing.line? span.startLine).bind fun chars => chars[index]?

def covered? (listing : Listing) (span : Span) : Option (List Char) :=
  if span.endLine = span.startLine ∧ span.startColumn ≤ span.endColumn then
    match listing.line? span.startLine, span.startColumn.toNat with
    | some line, first + 1 =>
        let stop := min (span.endColumn.toNat + 1) Span.limit - 1
        if first ≤ line.length ∧ stop ≤ line.length then some ((line.take stop).drop first) else none
    | _, _ => none
  else none

end Listing

end Calculator
