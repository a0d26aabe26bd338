/-! Stretches of program text, by line and column. -/

namespace Calculator

/-- A stretch of program text from its first to its last character. Lines and columns are counted in
characters from one. -/
structure Span where
  startLine : UInt32
  startColumn : UInt32
  endLine : UInt32
  endColumn : UInt32
deriving DecidableEq

namespace Span

def point (line column : UInt32) : Span := ⟨line, column, line, column⟩

def limit : Nat := UInt32.size - 1

/-- The place `offset` characters to the right of the span's start. A column past the limit is
reported as the limit. -/
def columnAt (span : Span) (offset : Nat) : Span :=
  point span.startLine (UInt32.ofNat (min (span.startColumn.toNat + offset) limit))

def text (span : Span) : String := toString span.startLine ++ ":" ++ toString span.startColumn

end Span

structure Place where
  line : Nat
  column : Nat
deriving DecidableEq

namespace Place

def start : Place := ⟨1, 1⟩

def after (place : Place) (c : Char) : Place :=
  if c = '\n' then ⟨place.line + 1, 1⟩ else ⟨place.line, place.column + 1⟩

def afterText (place : Place) (text : List Char) : Place := text.foldl after place

def span (place : Place) : Span := .point (UInt32.ofNat place.line) (UInt32.ofNat place.column)

/-- The span from one place up to the column before another, which may be no smaller than one. -/
def spanTo (first stop : Place) : Span :=
  ⟨UInt32.ofNat first.line, UInt32.ofNat first.column,
    UInt32.ofNat stop.line, UInt32.ofNat (max (stop.column - 1) 1)⟩

end Place

end Calculator
