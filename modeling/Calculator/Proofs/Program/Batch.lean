import Calculator.Proofs.Program.Scanned

/-! Lines compiled as a scanner hands out their tokens, against lines compiled from a queue that the whole
text was scanned into beforehand. Only the scanner can quote the line of a report. -/

namespace Calculator

open Statement TokenFeed

theorem Listing.isSome_line? {listing : Listing} {number : Nat} (positive : 1 ≤ number)
    (inside : number ≤ listing.lineCount) (bound : number < 2 ^ 32) :
    (listing.line? (UInt32.ofNat number)).isSome = true := by
  have value : (UInt32.ofNat number).toNat = number := toNat_ofNat_of_lt bound
  rw [← Option.ne_none_iff_isSome, Ne, line?_eq_none_iff, value]
  omega

theorem Token.Queue.yields_line {line : List Token} {ending : Token} (proper : Proper line ending)
    (later : List Token) (last : Span) :
    Yields (Queue.mk (line ++ ending :: later) last) line ending ⟨later, ending.span⟩ := by
  induction line generalizing last with
  | nil => exact .ending rfl proper.ends
  | cons token line ih =>
      have tail : Proper line ending :=
        ⟨fun other member => proper.inside other (List.mem_cons_of_mem _ member), proper.ends⟩
      exact .token rfl (proper.inside token List.mem_cons_self) (ih tail token.span)

namespace Scanner

/-- The number of the line the scanner is on and the line feeds ahead make up the lines of its text. -/
theorem next_lines_left (scanner : Scanner) :
    scanner.next.2.place.line + scanner.next.2.rest.count '\n' =
      scanner.place.line + scanner.rest.count '\n' := by
  have ahead : scanner.rest.count '\n' = (scanner.rest.dropWhile isBlank).count '\n' := by
    nth_rewrite 1 [← List.takeWhile_append_dropWhile (p := isBlank) (l := scanner.rest)]
    rw [List.count_append, List.count_eq_zero.mpr (newline_not_mem_blanks scanner.rest), Nat.zero_add]
  have start := tokenPlace_line scanner
  rcases ahead_cases scanner with closes | ⟨rest, closes⟩ | ⟨c, rest, found, inside⟩
  · rw [ahead, closes, next_of_end scanner closes, start]
  · rw [ahead, closes, next_of_newline scanner rest closes, List.count_cons_self]
    simp only [start]
    omega
  · have line := next_place_line scanner (isEndOfLine_next_of_lexeme scanner c rest found inside)
    have single := Lexeme.newline_not_mem_read_text scanner.lineStart c rest inside
    obtain ⟨left, split⟩ := Lexeme.read_text_prefix scanner.lineStart c rest
    have behind : scanner.next.2.rest = left := by
      rw [next_of_lexeme scanner c rest found inside]
      simp only [take]
      rw [← split, List.drop_left]
    rw [line, behind, ahead, found, ← split, List.count_append, List.count_eq_zero.mpr single, Nat.zero_add]

structure Reading (text : List Char) (scanner : Scanner) : Prop where
  listing : scanner.listing = .ofText text
  started : 1 ≤ scanner.place.line
  lines : scanner.place.line + scanner.rest.count '\n' = (Listing.ofText text).lineCount

namespace Reading

variable {text : List Char} {scanner : Scanner}

theorem ofText (text : List Char) : Reading text (.ofText text) := by
  refine ⟨rfl, Nat.le_refl 1, ?_⟩
  rw [Listing.lineCount, Listing.ofText, List.length_map, length_splitOn, Nat.add_comm]
  rfl

theorem next (reading : Reading text scanner) : Reading text scanner.next.2 := by
  have left := next_lines_left scanner
  have fewer := (next_rest_suffix scanner).sublist.count_le '\n'
  have started := reading.started
  exact ⟨(next_listing scanner).trans reading.listing, by omega, left.trans reading.lines⟩

theorem of_yields {last : Scanner} {line : List Token} {ending : Token}
    (yields : Yields scanner line ending last) (reading : Reading text scanner) : Reading text last :=
  holds_of_yields (fun _ before => before.next) yields reading

theorem isSome_line? (reading : Reading text scanner) (bound : text.length < 2 ^ 32 - 1) :
    ((Listing.ofText text).line? (UInt32.ofNat scanner.place.line)).isSome = true := by
  have lines := reading.lines
  have count : (Listing.ofText text).lineCount ≤ text.length + 1 := by
    rw [Listing.lineCount, Listing.ofText, List.length_map]
    exact length_splitOn_le text
  exact Listing.isSome_line? reading.started (by omega) (by omega)

end Reading

structure Queued (text : List Char) (scanner : Scanner) (queue : Token.Queue) : Prop where
  reading : Reading text scanner
  tokens : (∃ last, scanner.tokens = some (queue.tokens, last)) ∨ scanner.atEnd = true ∧ queue.tokens = []

theorem Queued.exists_yields {text : List Char} {scanner : Scanner} {queue : Token.Queue}
    (queued : Queued text scanner queue) :
    ∃ line ending last otherEnding left, Yields scanner line ending last ∧
      Yields queue line otherEnding left ∧ verdict ending line = verdict otherEnding line ∧
      Queued text last left := by
  obtain ⟨tokens, span⟩ := queue
  rcases queued.tokens with ⟨final, ends⟩ | ⟨finished, empty⟩
  · obtain ⟨line, ending, last, yields, _⟩ := scanner.exists_yields_of_tokens (by simp [ends])
    have proper := proper_of_yields yields
    have reading := queued.reading.of_yields yields
    rw [tokens_of_yields yields] at ends
    by_cases finished : last.atEnd = true
    · rw [if_pos finished, Option.some.injEq, Prod.mk.injEq] at ends
      obtain ⟨rfl, rfl⟩ := ends
      exact ⟨line, ending, last, ending, ⟨[], ending.span⟩, yields, Token.Queue.yields_line proper [] span,
        rfl, reading, .inr ⟨finished, rfl⟩⟩
    · rw [if_neg finished] at ends
      obtain ⟨⟨later, _⟩, continued, same⟩ := Option.map_eq_some_iff.mp ends
      obtain ⟨rfl, rfl⟩ := Prod.mk.inj same
      exact ⟨line, ending, last, ending, ⟨later, ending.span⟩, yields,
        Token.Queue.yields_line proper later span, rfl, reading, .inl ⟨_, continued⟩⟩
  · -- Past the end both hand out empty lines, and only the places of the line ends differ.
    obtain rfl : tokens = [] := empty
    have nothing : scanner.rest.dropWhile isBlank = [] := by
      have rest : scanner.rest = [] := by simpa [atEnd] using finished
      rw [rest]
      rfl
    have yields : Yields scanner [] _ _ := .ending (next_of_end scanner nothing) rfl
    exact ⟨[], _, _, _, _, yields, .ending rfl rfl, rfl, queued.reading.of_yields yields, .inr ⟨rfl, rfl⟩⟩

end Scanner

namespace Compiled

def nextLines {σ : Type} [TokenFeed σ] : Nat → σ → Option (List Compiled × σ)
  | 0, feed => some ([], feed)
  | count + 1, feed =>
      (nextLine feed).bind fun (compiled, rest) =>
        (nextLines count rest).map fun (results, rest) => (compiled :: results, rest)

def quote (listing : Listing) : Compiled → Compiled
  | failure report =>
      failure { report with sourceLine := ((listing.line? report.span.startLine).map String.ofList).getD "" }
  | compiled => compiled

/-- A report quotes no line, though its number is one of a text that is not too long. -/
def Unquoted (text : List Char) (compiled : Compiled) : Prop :=
  ∀ report, compiled = .failure report → report.sourceLine = "" ∧
    (text.length < 2 ^ 32 - 1 → ((Listing.ofText text).line? report.span.startLine).isSome = true)

theorem quote_ofVerdict (scanner : Scanner) (queue : Token.Queue)
    (verdict : Option (Except Fault (List UInt8))) :
    quote scanner.listing (ofVerdict queue verdict) = ofVerdict scanner verdict := by
  rcases verdict with _ | (fault | bytes)
  · rfl
  · rfl
  · rfl

theorem nextLine_of_queued {text : List Char} {scanner : Scanner} {queue : Token.Queue}
    (queued : scanner.Queued text queue) :
    ∃ compiled last left, nextLine queue = some (compiled, left) ∧
      nextLine scanner = some (quote (.ofText text) compiled, last) ∧ Unquoted text compiled ∧
      last.Queued text left := by
  obtain ⟨line, ending, last, otherEnding, left, yields, otherYields, same, later⟩ := queued.exists_yields
  refine ⟨ofVerdict left (verdict otherEnding line), last, left, nextLine_eq otherYields, ?_, ?_, later⟩
  · rw [nextLine_eq yields, same, ← later.reading.listing, quote_ofVerdict]
  · intro report failed
    rcases outcome : verdict otherEnding line with _ | (fault | bytes)
    · rw [outcome] at failed
      cases failed
    · rw [outcome] at failed
      cases failed
      refine ⟨rfl, ?_⟩
      intro bound
      -- The fault is on the line that the scanner was on.
      have rejected := (verdict_eq_error_iff (proper_of_yields yields) fault).mp (same.trans outcome)
      have places := Scanner.startLine_of_yields yields
      have number : fault.span.startLine = _ := rejected.startLine_eq places.1 places.2
      have known := queued.reading.isSome_line? bound
      rw [← number] at known
      exact known
    · rw [outcome] at failed
      cases failed

theorem nextLines_of_queued {text : List Char} (count : Nat) {scanner : Scanner} {queue : Token.Queue}
    (queued : scanner.Queued text queue) :
    ∃ results last left, nextLines count queue = some (results, left) ∧
      nextLines count scanner = some (results.map (quote (.ofText text)), last) ∧
      ∀ compiled ∈ results, Unquoted text compiled := by
  induction count generalizing scanner queue with
  | zero => exact ⟨[], scanner, queue, rfl, rfl, by simp⟩
  | succ count ih =>
      obtain ⟨compiled, last, left, fromQueue, fromScanner, unquoted, later⟩ := nextLine_of_queued queued
      obtain ⟨results, final, finalLeft, queueLater, scannerLater, others⟩ := ih later
      refine ⟨compiled :: results, final, finalLeft, ?_, ?_, ?_⟩
      · simp [nextLines, fromQueue, queueLater]
      · simp [nextLines, fromScanner, scannerLater]
      · simpa using ⟨unquoted, others⟩

/-- Compiling lines from a scanner and from a queue of all its tokens gives the same results, as often as
it is done, but for the lines that only the scanner can quote. -/
theorem nextLines_queue_of_tokens (text : List Char) {tokens : List Token} {last : Scanner}
    (ends : (Scanner.ofText text).tokens = some (tokens, last)) (count : Nat) :
    ∃ results final left, nextLines count (Token.Queue.ofList tokens) = some (results, left) ∧
      nextLines count (Scanner.ofText text) = some (results.map (quote (.ofText text)), final) ∧
      ∀ compiled ∈ results, Unquoted text compiled :=
  nextLines_of_queued count ⟨.ofText text, .inl ⟨last, ends⟩⟩

theorem nextLines_queue_of_tokens_past_end :
    ∃ results final left,
      nextLines 3 (Token.Queue.ofList [⟨.letter 'A', ⟨1, 1, 1, 1⟩⟩, ⟨.endOfLine, ⟨1, 2, 1, 2⟩⟩,
        ⟨.append, ⟨2, 1, 2, 1⟩⟩, ⟨.endOfLine, ⟨2, 2, 2, 2⟩⟩]) = some (results, left) ∧
      nextLines 3 (Scanner.ofText ['A', '\n', '>']) =
        some (results.map (quote (.ofText ['A', '\n', '>'])), final) ∧
      ∀ compiled ∈ results, Unquoted ['A', '\n', '>'] compiled := by
  have above : Lexes true 0 ['A'] [⟨0, ⟨['A'], .letter 'A', none⟩⟩] := .lexeme rfl rfl rfl (.blank rfl)
  have below : Lexes true 0 ['>'] [⟨0, ⟨['>'], .append, none⟩⟩] := .lexeme rfl rfl rfl (.blank rfl)
  obtain ⟨last, ends, _⟩ := (Scanner.tokens_ofText_iff ['A', '\n', '>'] _ _).mpr
    (.cons above (.cons below .nil))
  exact nextLines_queue_of_tokens _ ends 3

end Compiled

end Calculator
