import Calculator.Token

/-! Where tokens come from: a feed hands them out one at a time. -/

namespace Calculator

/-- A source of tokens. Past its last token it keeps handing out ends of line. `size` bounds what is
left: a token that does not end a line and leaves the size as it was will come again for ever. -/
class TokenFeed (σ : Type) where
  next : σ → Token × σ
  /-- The program line of a number, where the program text is known. -/
  line? : σ → UInt32 → Option String
  size : σ → Nat

namespace TokenFeed

variable {σ : Type} [TokenFeed σ]

/-- The tokens up to and with the next end of line, or nothing if the line never ends. -/
def takeLine (feed : σ) : Option (List Token × σ) :=
  let (token, rest) := next feed
  if token.isEndOfLine then some ([token], rest)
  else if size rest < size feed then
    (takeLine rest).map fun (tokens, rest) => (token :: tokens, rest)
  else none
termination_by size feed

def dropLine (feed : σ) : Option σ :=
  let (token, rest) := next feed
  if token.isEndOfLine then some rest
  else if size rest < size feed then dropLine rest
  else none
termination_by size feed

end TokenFeed

namespace Token

/-- Tokens made beforehand. Once they are used up, ends of line follow where the last one stood. -/
structure Queue where
  tokens : List Token
  last : Span

namespace Queue

def ofList (tokens : List Token) : Queue := ⟨tokens, .point 1 1⟩

def next (queue : Queue) : Token × Queue :=
  match queue.tokens with
  | [] => (⟨.endOfLine, queue.last⟩, queue)
  | token :: rest => (token, ⟨rest, token.span⟩)

instance : TokenFeed Queue where
  next := next
  line? _ _ := none
  size queue := queue.tokens.length

end Queue

/-- A feed that stops at the next end of line and then repeats it. -/
structure LineFeed (σ : Type) where
  feed : σ
  ending : Option Token

namespace LineFeed

variable {σ : Type} [TokenFeed σ]

def ofFeed (feed : σ) : LineFeed σ := ⟨feed, none⟩

def next (line : LineFeed σ) : Token × LineFeed σ :=
  match line.ending with
  | some token => (token, line)
  | none =>
      let (token, feed) := TokenFeed.next line.feed
      (token, ⟨feed, if token.isEndOfLine then some token else none⟩)

instance : TokenFeed (LineFeed σ) where
  next := next
  line? line number := TokenFeed.line? line.feed number
  size line := TokenFeed.size line.feed

def close (line : LineFeed σ) : Option σ :=
  match line.ending with
  | some _ => some line.feed
  | none => TokenFeed.dropLine line.feed

end LineFeed

end Token

end Calculator
