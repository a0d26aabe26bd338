import Calculator.Proofs.Numeral
import Calculator.Proofs.Program.Covered
import Calculator.Proofs.Program.Progress

/-! A scanner reports the flawed tokens, each once, however its tokens are taken. -/

namespace Calculator

open TokenFeed Scanner

/-- What is wrong with a token of this kind, told by the rest of its line from its first character on. -/
def Token.Kind.flaw? (ahead : List Char) : Token.Kind → Option Flaw
  | .text _ => if '"' ∈ ahead.tail then none else some .unterminated
  | .integer _ =>
      if 32767 < Nat.ofDigitChars 10 (ahead.takeWhile Char.isDigit) 0 then some .outOfRange else none
  | _ => none

namespace Token

def ahead (text : List Char) (token : Token) : List Char :=
  ((text.splitOn '\n').getD (token.span.startLine.toNat - 1) []).drop (token.span.startColumn.toNat - 1)

def complaint? (text : List Char) (token : Token) : Option (UInt16 × Span × Option String) :=
  (token.kind.flaw? (token.ahead text)).map fun flaw =>
    (flaw.code, token.span, ((Listing.ofText text).line? token.span.startLine).map String.ofList)

end Token

def Diagnostic.complaint (report : Diagnostic) : UInt16 × Span × Option String :=
  (report.code, report.span, some report.sourceLine)

namespace Lexeme

theorem takeWhile_isDigit_of_word {text : List Char}
    (digits : ∀ c ∈ text.takeWhile fun c => !endsWord c, c.isDigit = true) :
    text.takeWhile Char.isDigit = text.takeWhile fun c => !endsWord c := by
  induction text with
  | nil => rfl
  | cons c text ih =>
      cases ends : endsWord c with
      | true =>
          have strange : ¬c.isDigit = true := by
            intro digit
            rw [Numeral.IsNumeric.endsWord_eq (.inl digit)] at ends
            cases ends
          simp [ends, strange]
      | false =>
          simp only [List.takeWhile_cons, ends, Bool.not_false, if_true, List.forall_mem_cons] at digits
          simp [ends, digits.1, ih digits.2]

theorem flaw_ofWord (first : Bool) (text : List Char) :
    (ofWord first (text.takeWhile fun c => !endsWord c)).flaw =
      (ofWord first (text.takeWhile fun c => !endsWord c)).kind.flaw? text := by
  unfold ofWord
  split
  · rfl
  · split
    · next digits =>
        have run := takeWhile_isDigit_of_word (List.all_eq_true.mp digits.2)
        dsimp only
        split
        · next fits =>
            rw [Token.Kind.flaw?, run]
            exact (if_neg (Nat.not_lt.mpr fits)).symm
        · next large =>
            rw [Token.Kind.flaw?, run]
            exact (if_pos (Nat.lt_of_not_le large)).symm
    · split
      · rfl
      · split
        · split
          · rfl
          · rfl
        · rfl

theorem flaw_ofQuoted {text : List Char} (single : '\n' ∉ text) :
    (ofQuoted text).flaw = if '"' ∈ text then none else some .unterminated := by
  have listed {d : Char} {more : List Char}
      (found : (text.dropWhile fun c => c != '"' && c != '\n') = d :: more) : d ∈ text := by
    apply (List.dropWhile_suffix fun c => c != '"' && c != '\n').mem
    rw [found]
    exact List.mem_cons_self
  unfold ofQuoted
  dsimp only
  split
  · next more found => rw [if_pos (listed found)]
  · next unclosed =>
      rw [if_neg]
      intro member
      cases found : text.dropWhile fun c => c != '"' && c != '\n' with
      | nil => simpa using List.dropWhile_eq_nil_iff.mp found _ member
      | cons d more =>
          -- Only a quote or a line feed stops the literal, and the line has no line feed.
          have stops := List.head?_dropWhile_not (fun c => c != '"' && c != '\n') text
          have inside : d ≠ '\n' := fun newline => single (newline ▸ listed found)
          obtain rfl : d = '"' := by simpa [found, inside] using stops
          exact unclosed more found

theorem flaw_read (first : Bool) (c : Char) (rest : List Char) (single : '\n' ∉ c :: rest) :
    (read first c rest).flaw = (read first c rest).kind.flaw? (c :: rest) := by
  rcases read_cases first c rest with ⟨_, _, shape⟩ | ⟨_, shape⟩ | ⟨_, shape⟩ | ⟨_, shape⟩ | ⟨_, _, shape⟩
  · rw [shape]
    rfl
  · rw [shape, ofQuoted_kind, flaw_ofQuoted fun member => single (List.mem_cons_of_mem c member)]
    rfl
  · rw [shape]
    rfl
  · rw [shape]
    rfl
  · rw [shape]
    exact flaw_ofWord first (c :: rest)

end Lexeme

namespace Scanner

theorem Lexed.ahead_eq {text line : List Char} {index : Nat} {mark : Mark} (bound : text.length < 2 ^ 32 - 1)
    (lexed : Lexed (tokenLines text) index line mark) :
    (mark.token (1 + index)).ahead text = line.drop mark.offset := by
  obtain ⟨number, column, _⟩ := lexed.span_toNat bound
  have piece := getElem?_splitOn_of_tokenLines lexed.found
  simp only [Token.ahead, Mark.token, number, column, Nat.add_sub_cancel_left, Nat.add_sub_cancel,
    List.getD_eq_getElem?_getD, piece, Option.getD_some]

theorem Lexed.complaint?_eq {text line : List Char} {index : Nat} {mark : Mark}
    (bound : text.length < 2 ^ 32 - 1) (lexed : Lexed (tokenLines text) index line mark) :
    (mark.token (1 + index)).complaint? text = mark.lexeme.flaw.map fun flaw =>
      (flaw.code, mark.span (1 + index), some (String.ofList (Listing.dropReturn line))) := by
  obtain ⟨start, c, rest, shape, _, place, single⟩ := lexed.exists_read
  have flaw := Lexeme.flaw_read start c rest single
  have shown := lexed.line?_startLine bound
  rw [Token.complaint?, lexed.ahead_eq bound, place, shape, flaw]
  simp only [Mark.token, shape, shown, Option.map_some]

theorem Lexed.complaints {text line : List Char} {index : Nat} {mark : Mark}
    (bound : text.length < 2 ^ 32 - 1) (lexed : Lexed (tokenLines text) index line mark) :
    (mark.reports (.ofText text) (1 + index)).map Diagnostic.complaint =
      ((mark.token (1 + index)).complaint? text).toList := by
  have shown := lexed.line?_startLine bound
  rw [lexed.complaint?_eq bound]
  rcases flawed : mark.lexeme.flaw with _ | (_ | _)
  all_goals simp [Mark.reports, faultOf, flawed, shown, Diagnostic.complaint, Fault.code, Fault.span,
    Flaw.code]

theorem Scanned.map_reports {β : Type} {view : Diagnostic → β} {expected : Token → Option β}
    {listing : Listing} {number : Nat} {lines : List (List Char)} {tokens : List Token}
    {reports : List Diagnostic} (scanned : Scanned listing number lines tokens reports)
    (marked : ∀ index line mark, Lexed lines index line mark →
      (mark.reports listing (number + index)).map view = (expected (mark.token (number + index))).toList)
    (silent : ∀ number length, expected (lineEnding number length) = none) :
    reports.map view = tokens.filterMap expected := by
  induction scanned with
  | nil => rfl
  | @cons number line lines marks tokens reports lexes later ih =>
      have here : (marks.flatMap (·.reports listing number)).map view =
          (marks.map (·.token number)).filterMap expected := by
        rw [List.map_flatMap, List.filterMap_map, List.filterMap_eq_flatMap_toList]
        apply List.flatMap_congr
        intro mark member
        exact marked 0 line mark ⟨rfl, marks, lexes, member⟩
      have below : reports.map view = tokens.filterMap expected := by
        apply ih
        intro index line mark lexed
        rw [Nat.add_right_comm, Nat.add_assoc]
        exact marked (index + 1) line mark ⟨lexed.found, lexed.lexes⟩
      rw [List.map_append, List.filterMap_append, List.filterMap_cons, silent, here, below]

inductive Pull
  | token
  | line
  | statement

def pull (scanner : Scanner) : Pull → Option Scanner
  | .token => some scanner.next.2
  | .line => (takeLine scanner).map (·.2)
  | .statement => (Compiled.nextLine scanner).map (·.2)

def Settles (reports : List Diagnostic) (scanner : Scanner) : Prop :=
  ∃ later final, scanner.tokens = some (later, final) ∧ final.diagnostics = reports

theorem tokens_of_atEnd {scanner : Scanner} (finished : scanner.atEnd = true) :
    ∃ ending final, scanner.tokens = some ([ending], final) ∧ final.diagnostics = scanner.diagnostics := by
  have closes : scanner.rest.dropWhile isBlank = [] := by
    rw [List.isEmpty_iff.mp finished]
    rfl
  rw [tokens, next_of_end scanner closes]
  exact ⟨_, _, rfl, rfl⟩

namespace Settles

variable {reports : List Diagnostic} {scanner : Scanner}

theorem next (settles : Settles reports scanner) : Settles reports scanner.next.2 := by
  obtain ⟨later, final, ends, collected⟩ := settles
  rw [Scanner.tokens] at ends
  dsimp only at ends
  split at ends
  · next finished =>
      cases ends
      -- Past its last token the scanner still has a line end to hand out.
      obtain ⟨ending, last, closes, unchanged⟩ := tokens_of_atEnd (Bool.and_eq_true_iff.mp finished).2
      exact ⟨[ending], last, closes, unchanged.trans collected⟩
  · split at ends
    · obtain ⟨⟨behind, last⟩, found, whole⟩ := Option.map_eq_some_iff.mp ends
      cases whole
      exact ⟨behind, last, found, collected⟩
    · cases ends

theorem diagnostics_eq (settles : Settles reports scanner) (finished : scanner.atEnd = true) :
    scanner.diagnostics = reports := by
  obtain ⟨later, final, ends, collected⟩ := settles
  obtain ⟨ending, last, closes, unchanged⟩ := tokens_of_atEnd finished
  rw [ends] at closes
  cases closes
  rw [← unchanged, collected]

theorem pull (settles : Settles reports scanner) (way : Pull) :
    ∃ behind, scanner.pull way = some behind ∧ Settles reports behind := by
  obtain ⟨later, final, ends, collected⟩ := settles
  obtain ⟨line, ending, last, yields, _⟩ := scanner.exists_yields_of_tokens (by simp [ends])
  have onward : Settles reports last := holds_of_yields (fun _ => next) yields ⟨later, final, ends, collected⟩
  cases way with
  | token => exact ⟨scanner.next.2, rfl, next ⟨later, final, ends, collected⟩⟩
  | line => exact ⟨last, by rw [Scanner.pull, yields.takeLine_eq]; rfl, onward⟩
  | statement => exact ⟨last, by rw [Scanner.pull, Compiled.nextLine_eq yields]; rfl, onward⟩

theorem pulls (settles : Settles reports scanner) (ways : List Pull) :
    ∃ behind, ways.foldlM Scanner.pull scanner = some behind ∧ Settles reports behind := by
  induction ways generalizing scanner with
  | nil => exact ⟨scanner, rfl, settles⟩
  | cons way ways ih =>
      obtain ⟨middle, step, onward⟩ := settles.pull way
      rw [List.foldlM_cons, step]
      exact ih onward

end Settles

/-- The reports about a text are those its tokens call for, in order, and they are the same however
the tokens are taken. -/
theorem diagnostics_of_flawed_tokens (text : List Char) (bound : text.length < 2 ^ 32 - 1)
    {tokens : List Token} {last : Scanner} (ends : (ofText text).tokens = some (tokens, last)) :
    last.diagnostics.map Diagnostic.complaint = tokens.filterMap (Token.complaint? text) ∧
    ∀ ways : List Pull, ∃ scanner, ways.foldlM pull (ofText text) = some scanner ∧
      (∃ later final, scanner.tokens = some (later, final) ∧ final.diagnostics = last.diagnostics) ∧
      (scanner.atEnd = true → scanner.diagnostics = last.diagnostics) := by
  have scanned := (tokens_ofText_iff text tokens last.diagnostics).mp ⟨last, ends, rfl⟩
  constructor
  · apply scanned.map_reports
    · intro index line mark lexed
      exact lexed.complaints bound
    · intro number length
      rfl
  · intro ways
    have settles : Settles last.diagnostics (ofText text) := ⟨tokens, last, ends, rfl⟩
    obtain ⟨scanner, taken, onward⟩ := settles.pulls ways
    exact ⟨scanner, taken, onward, onward.diagnostics_eq⟩

theorem diagnostics_of_flawed_tokens_refused_line :
    let text := ['X', ' ', '4', '0', '0', '0', '0', '\n', '"', 'é']
    text.length < 2 ^ 32 - 1 ∧ ∃ tokens last, (ofText text).tokens = some (tokens, last) ∧
      last.diagnostics.map Diagnostic.complaint =
        [(102, ⟨1, 3, 1, 7⟩, some (.ofList ['X', ' ', '4', '0', '0', '0', '0'])),
          (101, ⟨2, 1, 2, 2⟩, some (.ofList ['"', 'é']))] ∧
      ∃ scanner, [Pull.statement, Pull.token].foldlM pull (ofText text) = some scanner ∧
        scanner.atEnd = true ∧ scanner.diagnostics = last.diagnostics := by
  have above : Lexes true 0 ['X', ' ', '4', '0', '0', '0', '0'] [⟨0, ⟨['X'], .letter 'X', none⟩⟩,
      ⟨2, ⟨['4', '0', '0', '0', '0'], .integer 0, some .outOfRange⟩⟩] :=
    .lexeme rfl rfl rfl (.lexeme rfl rfl rfl (.blank rfl))
  have below : Lexes true 0 ['"', 'é'] [⟨0, ⟨['"', 'é'], .text (.ofList ['é']), some .unterminated⟩⟩] :=
    .lexeme rfl rfl rfl (.blank rfl)
  obtain ⟨last, ends, _⟩ :=
    (tokens_ofText_iff ['X', ' ', '4', '0', '0', '0', '0', '\n', '"', 'é'] _ _).mpr
      (.cons above (.cons below .nil))
  obtain ⟨complaints, ways⟩ := diagnostics_of_flawed_tokens _ (by decide) ends
  -- The first line is no statement, and its second token is reported all the same.
  obtain ⟨scanner, taken, _, same⟩ := ways [.statement, .token]
  have on : (ofText ['X', ' ', '4', '0', '0', '0', '0', '\n', '"', 'é']).On 1 0
      ['X', ' ', '4', '0', '0', '0', '0'] ['\n', '"', 'é'] :=
    ⟨rfl, by decide, by simp [AtLineEnd], rfl⟩
  have finished : scanner.atEnd = true := by
    rw [List.foldlM_cons, pull, Compiled.nextLine_eq (above.yields on rfl)] at taken
    cases taken
    rfl
  exact ⟨by decide, _, last, ends, complaints, scanner, taken, finished, same finished⟩

end Scanner

end Calculator
