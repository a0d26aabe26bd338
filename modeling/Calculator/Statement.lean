import Calculator.ByteCode.Number
import Calculator.ByteCode.Text
import Calculator.Token.Feed

/-! Statements and the lines that hold them. -/

namespace Calculator

inductive Statement
  | number (token : Token)
  | text (token : Token)
  /-- The text to append is still to come. -/
  | appendText
deriving DecidableEq

namespace Statement

variable {σ : Type} [TokenFeed σ]

def ofToken (token : Token) : Except Fault Statement :=
  match token.kind with
  | .number _ => .ok (.number token)
  | .text _ => .ok (.text token)
  | .append => .ok .appendText
  | _ => .error (.unsupportedStatement token)

def compileAppend (feed : σ) : Except Fault (List UInt8) × σ :=
  let (token, feed) := TokenFeed.next feed
  (ByteCode.text .append token, feed)

def compile (statement : Statement) (feed : σ) : Except Fault (List UInt8) × σ :=
  match statement with
  | .number token => (ByteCode.number token, feed)
  | .text token => (ByteCode.text .replace token, feed)
  | .appendText => compileAppend feed

end Statement

inductive Compiled
  /-- There is no statement on the line. -/
  | nothing
  | code (bytes : List UInt8)
  | failure (diagnostic : Diagnostic)
deriving DecidableEq

namespace Compiled

variable {σ : Type} [TokenFeed σ]

def statement (first : Token) (feed : σ) : Except Fault (List UInt8) × σ :=
  match Statement.ofToken first with
  | .error fault => (.error fault, feed)
  | .ok statement =>
      match statement.compile feed with
      | (.error fault, feed) => (.error fault, feed)
      | (.ok bytes, feed) =>
          let (token, feed) := TokenFeed.next feed
          (if token.kind.endsStatement then .ok bytes else .error (.trailingToken token), feed)

def ofResult (feed : σ) : Except Fault (List UInt8) → Compiled
  | .ok bytes => .code bytes
  | .error fault => .failure (fault.report (TokenFeed.line? feed fault.span.startLine))

/-- Compiles the next line of a feed, whose rest is passed over after a fault. There is no answer if
the line never ends. -/
def nextLine (feed : σ) : Option (Compiled × σ) :=
  let (first, line) := Token.LineFeed.next (.ofFeed feed)
  if first.kind.endsStatement then line.close.map fun feed => (.nothing, feed)
  else
    let (result, line) := statement first line
    line.close.map fun feed => (ofResult feed result, feed)

end Compiled

end Calculator
