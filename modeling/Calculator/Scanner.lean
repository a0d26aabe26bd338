import Calculator.Fault
import Calculator.Listing
import Calculator.Scanner.Lexeme
import Calculator.Token.Feed

/-! Cutting program text into tokens. Faulty lexemes are reported and taken for tokens all the same. -/

namespace Calculator

structure Scanner where
  listing : Listing
  rest : List Char
  place : Place
  /-- No token of the current line has been handed out yet. -/
  lineStart : Bool
  diagnostics : List Diagnostic

namespace Scanner

def ofText (text : List Char) : Scanner := ⟨.ofText text, text, .start, true, []⟩

def atEnd (scanner : Scanner) : Bool := scanner.rest.isEmpty

def line? (scanner : Scanner) (number : UInt32) : Option String :=
  (scanner.listing.line? number).map String.ofList

def faultOf (lexeme : Lexeme) (span : Span) : Option Fault :=
  lexeme.flaw.map fun flaw =>
    match flaw with
    | .unterminated => .unterminatedText span
    | .outOfRange => .operandOutOfRange (.ofList lexeme.text) span

def take (scanner : Scanner) (lexeme : Lexeme) : Token × Scanner :=
  let stop := scanner.place.afterText lexeme.text
  let span := scanner.place.spanTo stop
  let reports := (faultOf lexeme span).toList.map fun fault => fault.report (scanner.line? span.startLine)
  (⟨lexeme.kind, span⟩,
    { scanner with
      rest := scanner.rest.drop lexeme.text.length
      place := stop
      lineStart := false
      diagnostics := scanner.diagnostics ++ reports })

def skipBlanks (scanner : Scanner) : Scanner :=
  { scanner with
    rest := scanner.rest.dropWhile isBlank
    place := scanner.place.afterText (scanner.rest.takeWhile isBlank) }

/-- The next token and the scanner behind it. The end of the text ends a line, again and again. -/
def next (scanner : Scanner) : Token × Scanner :=
  let scanner := scanner.skipBlanks
  match scanner.rest with
  | [] => (⟨.endOfLine, scanner.place.span⟩, { scanner with lineStart := true })
  | c :: rest =>
      if c = '\n' then
        (⟨.endOfLine, scanner.place.span⟩,
          { scanner with rest := rest, place := scanner.place.after c, lineStart := true })
      else scanner.take (.read scanner.lineStart c rest)

instance : TokenFeed Scanner where
  next := next
  line? := line?
  size scanner := scanner.rest.length

/-- All tokens up to the end of the text, or nothing if the scanner gets stuck. -/
def tokens (scanner : Scanner) : Option (List Token × Scanner) :=
  let (token, rest) := scanner.next
  if token.isEndOfLine && rest.atEnd then some ([token], rest)
  else if rest.rest.length < scanner.rest.length then
    rest.tokens.map fun (tokens, rest) => (token :: tokens, rest)
  else none
termination_by scanner.rest.length

end Scanner

end Calculator
