import Calculator.Proofs.Fault
import Calculator.Proofs.Scanner.Line

/-! The lexemes of a line, each with its place on the line. They are found without a scanner, and a
scanner hands out exactly their tokens. -/

namespace Calculator

open TokenFeed

def Flaw.code : Flaw → UInt16
  | unterminated => 101
  | outOfRange => 102

structure Mark where
  offset : Nat
  lexeme : Lexeme

theorem toNat_ofNat_of_lt {n : Nat} (bound : n < 2 ^ 32) : (UInt32.ofNat n).toNat = n := by
  rw [UInt32.toNat_ofNat', Nat.mod_eq_of_lt bound]

namespace Mark

def stop (mark : Mark) : Nat := mark.offset + mark.lexeme.text.length

def span (number : Nat) (mark : Mark) : Span :=
  Place.spanTo ⟨number, mark.offset + 1⟩ ⟨number, mark.stop + 1⟩

def token (number : Nat) (mark : Mark) : Token := ⟨mark.lexeme.kind, mark.span number⟩

def reports (listing : Listing) (number : Nat) (mark : Mark) : List Diagnostic :=
  (Scanner.faultOf mark.lexeme (mark.span number)).toList.map fun fault =>
    fault.report ((listing.line? (mark.span number).startLine).map String.ofList)

theorem span_toNat (number : Nat) (mark : Mark) (lines : number < 2 ^ 32) (order : mark.offset < mark.stop)
    (columns : mark.stop < 2 ^ 32) :
    (mark.span number).startLine.toNat = number ∧ (mark.span number).startColumn.toNat = mark.offset + 1 ∧
      (mark.span number).endLine.toNat = number ∧ (mark.span number).endColumn.toNat = mark.stop := by
  have first : mark.offset + 1 < 2 ^ 32 := by omega
  have column : max (mark.stop + 1 - 1) 1 = mark.stop := by omega
  simp only [span, Place.spanTo, column, toNat_ofNat_of_lt lines, toNat_ofNat_of_lt first,
    toNat_ofNat_of_lt columns, and_self]

theorem places_reports (listing : Listing) (number : Nat) (mark : Mark) :
    (mark.reports listing number).map (fun report => (report.code, report.span)) =
      (mark.lexeme.flaw.map fun flaw => (flaw.code, mark.span number)).toList := by
  rcases flaw : mark.lexeme.flaw with _ | (_ | _)
  · simp [reports, Scanner.faultOf, flaw]
  · simp [reports, Scanner.faultOf, flaw, Fault.code, Fault.span, Flaw.code]
  · simp [reports, Scanner.faultOf, flaw, Fault.code, Fault.span, Flaw.code]

theorem codes_of_reports (listing : Listing) (number : Nat) (mark : Mark) :
    (mark.reports listing number).map (·.code) = (mark.lexeme.flaw.map Flaw.code).toList := by
  have places := congrArg (List.map Prod.fst) (places_reports listing number mark)
  cases flaw : mark.lexeme.flaw with
  | none => simpa [flaw] using places
  | some _ => simpa [flaw, Function.comp_def] using places

end Mark

def lineEnding (number length : Nat) : Token := ⟨.endOfLine, Place.span ⟨number, length + 1⟩⟩

inductive Lexes : Bool → Nat → List Char → List Mark → Prop
  | blank {first : Bool} {offset : Nat} {text : List Char} (empty : text.dropWhile isBlank = []) :
      Lexes first offset text []
  | lexeme {first : Bool} {offset : Nat} {text rest : List Char} {c : Char} {mark : Mark}
      {marks : List Mark} (found : text.dropWhile isBlank = c :: rest) (dark : isWhiteSpace c = false)
      (here : mark = ⟨offset + (text.takeWhile isBlank).length, .read first c rest⟩)
      (tail : Lexes false mark.stop ((c :: rest).drop mark.lexeme.text.length) marks) :
      Lexes first offset text (mark :: marks)

theorem length_takeWhile_add_length_dropWhile (p : Char → Bool) (text : List Char) :
    (text.takeWhile p).length + (text.dropWhile p).length = text.length := by
  rw [← List.length_append, List.takeWhile_append_dropWhile]

theorem drop_length_takeWhile (p : Char → Bool) (text : List Char) :
    text.drop (text.takeWhile p).length = text.dropWhile p := by
  have split := (List.takeWhile_append_dropWhile (p := p) (l := text)).symm
  exact (congrArg (List.drop _) split).trans List.drop_left

theorem ne_newline_of_dropWhile {line rest : List Char} {c : Char} (single : '\n' ∉ line)
    (found : line.dropWhile isBlank = c :: rest) : c ≠ '\n' := by
  rintro rfl
  have member : '\n' ∈ line.dropWhile isBlank := by simp [found]
  exact single ((List.dropWhile_suffix isBlank).mem member)

namespace Scanner

structure On (scanner : Scanner) (number offset : Nat) (line tail : List Char) : Prop where
  rest : scanner.rest = line ++ tail
  single : '\n' ∉ line
  lineEnd : AtLineEnd tail
  place : scanner.place = ⟨number, offset + 1⟩

def pastLine (scanner : Scanner) (number length : Nat) (tail : List Char)
    (reports : List Diagnostic) : Scanner :=
  { scanner with
    rest := tail.tail
    place := if tail = [] then ⟨number, length + 1⟩ else ⟨number + 1, 1⟩
    lineStart := true
    diagnostics := scanner.diagnostics ++ reports }

def pastMark (scanner : Scanner) (number : Nat) (mark : Mark) (left : List Char) : Scanner :=
  { scanner with
    rest := left
    place := ⟨number, mark.stop + 1⟩
    lineStart := false
    diagnostics := scanner.diagnostics ++ mark.reports scanner.listing number }

namespace On

variable {scanner : Scanner} {number offset : Nat} {line tail : List Char}

theorem tokenPlace_eq (on : On scanner number offset line tail) :
    scanner.tokenPlace = ⟨number, offset + (line.takeWhile isBlank).length + 1⟩ := by
  have single : '\n' ∉ line.takeWhile isBlank := fun member =>
    on.single ((List.takeWhile_prefix isBlank).mem member)
  rw [tokenPlace, on.rest, takeWhile_append_lineEnd isBlank_newline _ on.lineEnd, on.place,
    Place.afterText_of_not_mem _ _ single]
  simp only [Place.mk.injEq, true_and]
  omega

theorem ahead_eq (on : On scanner number offset line tail) :
    scanner.rest.dropWhile isBlank = line.dropWhile isBlank ++ tail := by
  rw [on.rest, dropWhile_append_lineEnd isBlank_newline _ on.lineEnd]

theorem next_of_blank (on : On scanner number offset line tail)
    (empty : line.dropWhile isBlank = []) :
    scanner.next =
      (lineEnding number (offset + line.length), scanner.pastLine number (offset + line.length) tail []) := by
  have whole := length_takeWhile_add_length_dropWhile isBlank line
  rw [empty, List.length_nil, Nat.add_zero] at whole
  have ahead := on.ahead_eq
  have start := on.tokenPlace_eq
  rw [empty, List.nil_append] at ahead
  rw [whole] at start
  cases tail with
  | nil =>
      rw [next_of_end scanner ahead, start]
      simp [pastLine, lineEnding]
  | cons c more =>
      obtain rfl := on.lineEnd c rfl
      rw [next_of_newline scanner more ahead, start]
      simp [pastLine, lineEnding]

theorem next_of_mark (on : On scanner number offset line tail) {c : Char} {rest : List Char}
    {mark : Mark} (found : line.dropWhile isBlank = c :: rest)
    (here : mark = ⟨offset + (line.takeWhile isBlank).length, .read scanner.lineStart c rest⟩) :
    scanner.next = (mark.token number,
      scanner.pastMark number mark ((c :: rest).drop mark.lexeme.text.length ++ tail)) := by
  subst here
  have inside := ne_newline_of_dropWhile on.single found
  have ahead : scanner.rest.dropWhile isBlank = c :: (rest ++ tail) := by
    rw [on.ahead_eq, found, List.cons_append]
  have same := Lexeme.read_append on.lineEnd scanner.lineStart c rest
  have fits := (Lexeme.read_text_prefix scanner.lineStart c rest).length_le
  have single := Lexeme.newline_not_mem_read_text scanner.lineStart c rest inside
  rw [next_of_lexeme scanner c _ ahead inside, same, on.tokenPlace_eq]
  simp only [take, pastMark, Mark.token, Mark.span, Mark.stop, Mark.reports, line?,
    Place.afterText_of_not_mem _ _ single, ← List.cons_append,
    List.drop_append_of_le_length fits]
  simp only [Nat.add_right_comm _ 1]

theorem pastMark_on (on : On scanner number offset line tail) {c : Char} {rest : List Char}
    (mark : Mark) (found : line.dropWhile isBlank = c :: rest) :
    On (scanner.pastMark number mark ((c :: rest).drop mark.lexeme.text.length ++ tail)) number
      mark.stop ((c :: rest).drop mark.lexeme.text.length) tail := by
  refine ⟨rfl, ?_, on.lineEnd, rfl⟩
  intro member
  have earlier : '\n' ∈ line.dropWhile isBlank := by
    rw [found]
    exact List.mem_of_mem_drop member
  exact on.single ((List.dropWhile_suffix isBlank).mem earlier)

end On

end Scanner

namespace Lexes

theorem unique {first : Bool} {offset : Nat} {line : List Char} {marks others : List Mark}
    (lexes : Lexes first offset line marks) (again : Lexes first offset line others) :
    marks = others := by
  induction lexes generalizing others with
  | blank empty =>
      cases again with
      | blank _ => rfl
      | lexeme found _ _ _ =>
          rw [empty] at found
          cases found
  | @lexeme first offset line rest c mark marks found dark here tail ih =>
      cases again with
      | blank empty =>
          rw [empty] at found
          cases found
      | lexeme foundAgain _ hereAgain tailAgain =>
          rw [found] at foundAgain
          cases foundAgain
          rw [← here] at hereAgain
          subst hereAgain
          rw [ih tailAgain]

theorem stop_add_length {first : Bool} {offset : Nat} {line rest : List Char} {c : Char} {mark : Mark}
    (found : line.dropWhile isBlank = c :: rest)
    (here : mark = ⟨offset + (line.takeWhile isBlank).length, .read first c rest⟩) :
    mark.stop + ((c :: rest).drop mark.lexeme.text.length).length = offset + line.length := by
  have whole := length_takeWhile_add_length_dropWhile isBlank line
  have fits := (Lexeme.read_text_prefix first c rest).length_le
  rw [found] at whole
  subst here
  simp only [Mark.stop, List.length_drop]
  omega

theorem yields {first : Bool} {offset : Nat} {line : List Char} {marks : List Mark}
    (lexes : Lexes first offset line marks) {scanner : Scanner} {number : Nat} {tail : List Char}
    (on : scanner.On number offset line tail) (start : scanner.lineStart = first) :
    Yields scanner (marks.map (·.token number)) (lineEnding number (offset + line.length))
      (scanner.pastLine number (offset + line.length) tail
        (marks.flatMap (·.reports scanner.listing number))) := by
  induction lexes generalizing scanner with
  | blank empty => exact .ending (on.next_of_blank empty) rfl
  | @lexeme first offset line rest c mark marks found dark here later ih =>
      subst start
      have step := on.next_of_mark found here
      have inside : (mark.token number).isEndOfLine = false := by
        rw [here]
        simpa [Mark.token, Token.isEndOfLine] using
          Lexeme.read_kind_ne_endOfLine scanner.lineStart c rest
      have tail := ih (on.pastMark_on mark found) rfl
      rw [stop_add_length found here] at tail
      simp only [Scanner.pastLine, Scanner.pastMark, List.append_assoc] at tail
      exact .token step inside tail

theorem drop_offset {line rest : List Char} {c : Char} (found : line.dropWhile isBlank = c :: rest) :
    line.drop (line.takeWhile isBlank).length = c :: rest := by
  rw [drop_length_takeWhile, found]

/-- Each lexeme is read where its mark says it stands. -/
theorem read_at {first : Bool} {offset : Nat} {line : List Char} {marks : List Mark}
    (lexes : Lexes first offset line marks) : ∀ mark ∈ marks, ∃ start c rest,
      mark.lexeme = .read start c rest ∧ isWhiteSpace c = false ∧ offset ≤ mark.offset ∧
      line.drop (mark.offset - offset) = c :: rest := by
  induction lexes with
  | blank _ => simp
  | @lexeme first offset line rest c mark marks found dark here tail ih =>
      have begins : mark.offset = offset + (line.takeWhile isBlank).length := by rw [here]
      have stops : mark.stop = mark.offset + mark.lexeme.text.length := rfl
      intro other member
      rcases List.mem_cons.mp member with rfl | later
      · refine ⟨first, c, rest, by rw [here], dark, by omega, ?_⟩
        rw [begins, Nat.add_sub_cancel_left]
        exact drop_offset found
      · obtain ⟨start, d, behind, shape, otherDark, below, place⟩ := ih other later
        refine ⟨start, d, behind, shape, otherDark, by omega, ?_⟩
        have shift : other.offset - offset =
            (line.takeWhile isBlank).length + (mark.lexeme.text.length + (other.offset - mark.stop)) := by
          omega
        rw [shift, ← List.drop_drop, drop_offset found, ← List.drop_drop]
        exact place

theorem bounds {first : Bool} {offset : Nat} {line : List Char} {marks : List Mark}
    (lexes : Lexes first offset line marks) : ∀ mark ∈ marks,
      offset ≤ mark.offset ∧ mark.offset < mark.stop ∧ mark.stop ≤ offset + line.length := by
  intro mark member
  obtain ⟨start, c, rest, shape, dark, below, place⟩ := lexes.read_at mark member
  have inside : c ≠ '\n' := by
    rintro rfl
    simp [isWhiteSpace] at dark
  have covers := mt (Lexeme.read_text_eq_nil_iff start c rest inside).mp (by simp [dark])
  have positive := List.length_pos_iff.mpr covers
  have fits := (Lexeme.read_text_prefix start c rest).length_le
  rw [← place, List.length_drop] at fits
  rw [← shape] at positive fits
  rw [Mark.stop]
  omega

theorem ordered {first : Bool} {offset : Nat} {line : List Char} {marks : List Mark}
    (lexes : Lexes first offset line marks) : marks.Pairwise fun mark later => mark.stop ≤ later.offset := by
  induction lexes with
  | blank _ => exact .nil
  | lexeme found dark here tail ih =>
      apply List.pairwise_cons.mpr
      constructor
      · intro later member
        exact (tail.bounds later member).1
      · exact ih

theorem eq_of_offset {first : Bool} {offset : Nat} {line : List Char} {marks : List Mark}
    (lexes : Lexes first offset line marks) : ∀ mark ∈ marks, ∀ other ∈ marks,
      mark.offset = other.offset → mark = other := by
  induction lexes with
  | blank _ => simp
  | @lexeme first offset line rest c head marks found dark here tail ih =>
      have starts := (Lexes.lexeme found dark here tail).bounds head List.mem_cons_self
      intro mark member other again same
      rcases List.mem_cons.mp member with rfl | later
      · rcases List.mem_cons.mp again with rfl | otherLater
        · rfl
        · have bounds := tail.bounds other otherLater
          omega
      · rcases List.mem_cons.mp again with rfl | otherLater
        · have bounds := tail.bounds mark later
          omega
        · exact ih mark later other otherLater same

theorem covered {first : Bool} {offset : Nat} {text : List Char} {marks : List Mark}
    (lexes : Lexes first offset text marks) : ∀ index c, text[index]? = some c →
      isBlank c = true ∨ ∃ mark ∈ marks, mark.offset ≤ offset + index ∧ offset + index < mark.stop := by
  induction lexes with
  | blank empty =>
      intro index c character
      exact .inl (List.dropWhile_eq_nil_iff.mp empty c (List.mem_of_getElem? character))
  | @lexeme first offset text rest d mark marks found dark here tail ih =>
      have begins : mark.offset = offset + (text.takeWhile isBlank).length := by rw [here]
      have stops : mark.stop = mark.offset + mark.lexeme.text.length := rfl
      intro index c character
      by_cases blank : index < (text.takeWhile isBlank).length
      · left
        rw [← List.takeWhile_append_dropWhile (p := isBlank) (l := text),
          List.getElem?_append_left blank] at character
        exact List.mem_takeWhile_imp (List.mem_of_getElem? character)
      · by_cases inside : offset + index < mark.stop
        · exact .inr ⟨mark, List.mem_cons_self, by omega, inside⟩
        · have behind : index = (text.takeWhile isBlank).length +
              (mark.lexeme.text.length + (offset + index - mark.stop)) := by
            omega
          rw [behind, ← List.getElem?_drop, drop_offset found, ← List.getElem?_drop] at character
          rcases ih _ c character with white | ⟨later, member, lower, upper⟩
          · exact .inl white
          · exact .inr ⟨later, List.mem_cons_of_mem _ member, by omega, by omega⟩

end Lexes

namespace Scanner

theorem lexes_of_yields {scanner last : Scanner} {tokens : List Token} {ending : Token}
    (yields : Yields scanner tokens ending last) {number offset : Nat} {line tail : List Char}
    (on : scanner.On number offset line tail) :
    ∃ marks, Lexes scanner.lineStart offset line marks := by
  induction yields generalizing offset line with
  | @ending scanner last token step closes =>
      cases found : line.dropWhile isBlank with
      | nil => exact ⟨[], .blank found⟩
      | cons c rest =>
          have ahead : scanner.rest.dropWhile isBlank = c :: (rest ++ tail) := by
            rw [on.ahead_eq, found, List.cons_append]
          have inside := isEndOfLine_next_of_lexeme scanner c _ ahead (ne_newline_of_dropWhile on.single found)
          rw [show scanner.next = _ from step, closes] at inside
          contradiction
  | @token scanner middle last token ending tokens step inside later ih =>
      cases found : line.dropWhile isBlank with
      | nil => exact ⟨[], .blank found⟩
      | cons c rest =>
          have notNewline := ne_newline_of_dropWhile on.single found
          have ahead : scanner.rest.dropWhile isBlank = c :: (rest ++ tail) := by
            rw [on.ahead_eq, found, List.cons_append]
          -- A line that ends holds no character that a scanner cannot get past.
          have dark : isWhiteSpace c = false := by
            by_contra white
            have stalled : Stalled scanner := ⟨c, _, ahead, notNewline, by simpa using white⟩
            exact not_stalled_of_yields (.token step inside later) stalled
          have moved := on.next_of_mark found rfl
          obtain ⟨rfl, rfl⟩ : token = _ ∧ middle = _ :=
            Prod.mk.inj ((show scanner.next = _ from step).symm.trans moved)
          obtain ⟨marks, tail⟩ := ih (on.pastMark_on _ found)
          exact ⟨_, .lexeme found dark rfl tail⟩

/-- A line that ends is handed out as its lexemes. -/
theorem yields_iff_lexes {scanner : Scanner} {number offset : Nat} {line tail : List Char}
    (on : scanner.On number offset line tail) (tokens : List Token) (ending : Token) (last : Scanner) :
    Yields scanner tokens ending last ↔ ∃ marks, Lexes scanner.lineStart offset line marks ∧
      tokens = marks.map (·.token number) ∧ ending = lineEnding number (offset + line.length) ∧
      last = scanner.pastLine number (offset + line.length) tail
        (marks.flatMap (·.reports scanner.listing number)) := by
  constructor
  · intro yields
    obtain ⟨marks, lexes⟩ := lexes_of_yields yields on
    exact ⟨marks, lexes, yields.unique (lexes.yields on rfl)⟩
  · rintro ⟨marks, lexes, rfl, rfl, rfl⟩
    exact lexes.yields on rfl

end Scanner

end Calculator
