import Calculator.Proofs.Program.Lines
import Calculator.Proofs.Scanner.Marks

/-! A program text is handed out line by line, each line as its lexemes and its end. -/

namespace Calculator

open TokenFeed

def tokenLines (text : List Char) : List (List Char) :=
  if text = [] then [[]] else statementLines text

theorem tokenLines_line (line tail : List Char) (single : '\n' ∉ line) (lineEnd : AtLineEnd tail) :
    tokenLines (line ++ tail) = line :: if tail.tail = [] then [] else tokenLines tail.tail := by
  by_cases empty : line ++ tail = []
  · obtain ⟨rfl, rfl⟩ := List.append_eq_nil_iff.mp empty
    rfl
  · rw [tokenLines, if_neg empty, statementLines_line line tail single lineEnd empty]
    by_cases last : tail.tail = []
    · rw [if_pos last, last]
      rfl
    · rw [if_neg last, tokenLines, if_neg last]

theorem getElem?_tokenLines_of_statementLines {text line : List Char} {index : Nat}
    (found : (statementLines text)[index]? = some line) : (tokenLines text)[index]? = some line := by
  have started : text ≠ [] := by
    rintro rfl
    cases found
  rw [tokenLines, if_neg started]
  exact found

theorem getElem?_splitOn_of_tokenLines {text line : List Char} {index : Nat}
    (found : (tokenLines text)[index]? = some line) : (text.splitOn '\n')[index]? = some line := by
  unfold tokenLines at found
  split at found
  · next empty =>
      rw [empty]
      exact found
  · exact getElem?_splitOn_of_statementLines found

theorem getElem?_tokenLines {text line : List Char} {index : Nat}
    (found : (tokenLines text)[index]? = some line) :
    '\n' ∉ line ∧ index + line.length ≤ text.length := by
  induction text using line_induction generalizing index with
  | step first tail single lineEnd ih =>
      rw [tokenLines_line first tail single lineEnd] at found
      rw [List.length_append]
      cases index with
      | zero =>
          obtain rfl : first = line := by simpa using found
          exact ⟨single, by omega⟩
      | succ index =>
          rw [List.getElem?_cons_succ] at found
          by_cases finished : tail.tail = []
          · simp [finished] at found
          · have below := List.length_pos_iff.mpr finished
            rw [if_neg finished] at found
            obtain ⟨inside, fits⟩ := ih (append_ne_nil_of_tail first finished) found
            rw [List.length_tail] at below fits
            exact ⟨inside, by omega⟩

namespace Scanner

theorem onLine_on (number : Nat) {line : List Char} (single : '\n' ∉ line) :
    (onLine number line).On number 0 line [] :=
  ⟨(List.append_nil line).symm, single, by simp [AtLineEnd], rfl⟩

theorem length_next_lt_of_line (scanner : Scanner) (closes : scanner.next.1.isEndOfLine = true)
    (more : scanner.next.2.atEnd = false) : scanner.next.2.rest.length < scanner.rest.length := by
  have skipped := (List.dropWhile_suffix isBlank (l := scanner.rest)).length_le
  rcases ahead_cases scanner with ended | ⟨rest, newline⟩ | ⟨c, rest, found, inside⟩
  · rw [next_of_end scanner ended] at more
    simp [atEnd] at more
  · rw [newline, List.length_cons] at skipped
    rw [next_of_newline scanner rest newline]
    exact skipped
  · rw [isEndOfLine_next_of_lexeme scanner c rest found inside] at closes
    contradiction

theorem tokens_of_yields {scanner last : Scanner} {line : List Token} {ending : Token}
    (yields : Yields scanner line ending last) :
    scanner.tokens = if last.atEnd then some (line ++ [ending], last)
      else last.tokens.map fun later => (line ++ ending :: later.1, later.2) := by
  induction yields with
  | @ending scanner last token step closes =>
      have moved : scanner.next = (token, last) := step
      rw [tokens]
      by_cases finished : last.atEnd = true
      · simp [moved, closes, finished]
      · have shorter := length_next_lt_of_line scanner
        rw [moved] at shorter
        simp [moved, closes, finished, shorter closes (by simpa using finished)]
  | @token scanner middle last token ending line step inside tail ih =>
      have moved : scanner.next = (token, middle) := step
      have shorter : middle.rest.length < scanner.rest.length := Lawful.size_lt step inside tail
      rw [tokens]
      simp only [moved, inside, Bool.false_and, Bool.false_eq_true, if_false, shorter, if_true, ih]
      by_cases finished : last.atEnd = true
      · simp [finished]
      · simp [finished, Option.map_map, Function.comp_def]

inductive Scanned (listing : Listing) : Nat → List (List Char) → List Token → List Diagnostic → Prop
  | nil {number : Nat} : Scanned listing number [] [] []
  | cons {number : Nat} {line : List Char} {lines : List (List Char)} {marks : List Mark}
      {tokens : List Token} {reports : List Diagnostic} (lexes : Lexes true 0 line marks)
      (later : Scanned listing (number + 1) lines tokens reports) :
      Scanned listing number (line :: lines)
        (marks.map (·.token number) ++ lineEnding number line.length :: tokens)
        (marks.flatMap (·.reports listing number) ++ reports)

theorem kinds_line (number length : Nat) (marks : List Mark) (tokens : List Token) :
    (marks.map (·.token number) ++ lineEnding number length :: tokens).map (·.kind) =
      marks.map (·.lexeme.kind) ++ .endOfLine :: tokens.map (·.kind) := by
  simp [Mark.token, lineEnding, Function.comp_def]

structure Lexed (lines : List (List Char)) (index : Nat) (line : List Char) (mark : Mark) : Prop where
  found : lines[index]? = some line
  lexes : ∃ marks, Lexes true 0 line marks ∧ mark ∈ marks

theorem Scanned.exists_lexed {listing : Listing} {number : Nat} {lines : List (List Char)}
    {tokens : List Token} {reports : List Diagnostic}
    (scanned : Scanned listing number lines tokens reports) :
    ∀ token ∈ tokens, token.isEndOfLine = false →
      ∃ index line mark, Lexed lines index line mark ∧ token = mark.token (number + index) := by
  induction scanned with
  | nil => simp
  | @cons number line lines marks tokens reports lexes later ih =>
      intro token member inside
      rcases List.mem_append.mp member with listed | behind
      · obtain ⟨mark, among, rfl⟩ := List.mem_map.mp listed
        exact ⟨0, line, mark, ⟨rfl, marks, lexes, among⟩, rfl⟩
      · rcases List.mem_cons.mp behind with rfl | below
        · cases inside
        · obtain ⟨index, text, mark, lexed, rfl⟩ := ih token below inside
          refine ⟨index + 1, text, mark, ⟨lexed.found, lexed.lexes⟩, ?_⟩
          rw [Nat.add_right_comm, Nat.add_assoc]

def Reported (reports : List Diagnostic) (code : UInt16) (span : Span) : Prop :=
  ∃ report ∈ reports, report.code = code ∧ report.span = span

theorem reported_mark_iff (listing : Listing) (number : Nat) (mark : Mark) (code : UInt16) (span : Span) :
    Reported (mark.reports listing number) code span ↔
      ∃ flaw, mark.lexeme.flaw = some flaw ∧ flaw.code = code ∧ mark.span number = span := by
  have places := mark.places_reports listing number
  have listed : Reported (mark.reports listing number) code span ↔
      (code, span) ∈ (mark.reports listing number).map fun report => (report.code, report.span) := by
    simp [Reported]
  rw [listed, places]
  simp

theorem Scanned.reported_iff {listing : Listing} {number : Nat} {lines : List (List Char)}
    {tokens : List Token} {reports : List Diagnostic}
    (scanned : Scanned listing number lines tokens reports) (code : UInt16) (span : Span) :
    Reported reports code span ↔ ∃ index line mark flaw, Lexed lines index line mark ∧
      mark.lexeme.flaw = some flaw ∧ flaw.code = code ∧ mark.span (number + index) = span := by
  induction scanned with
  | nil =>
      constructor
      · rintro ⟨report, member, _⟩
        cases member
      · rintro ⟨index, line, mark, flaw, lexed, _⟩
        cases lexed.found
  | @cons number line lines marks tokens reports lexes later ih =>
      constructor
      · rintro ⟨report, member, same⟩
        rcases List.mem_append.mp member with listed | below
        · obtain ⟨mark, among, here⟩ := List.mem_flatMap.mp listed
          obtain ⟨flaw, flawed, place⟩ := (reported_mark_iff _ _ _ _ _).mp ⟨report, here, same⟩
          exact ⟨0, line, mark, flaw, ⟨rfl, marks, lexes, among⟩, flawed, place⟩
        · obtain ⟨index, text, mark, flaw, lexed, flawed, place⟩ := ih.mp ⟨report, below, same⟩
          refine ⟨index + 1, text, mark, flaw, ⟨lexed.found, lexed.lexes⟩, flawed, ?_⟩
          rw [← Nat.add_assoc, Nat.add_right_comm]
          exact place
      · rintro ⟨index, text, mark, flaw, ⟨found, again, lexesAgain, among⟩, flawed, place⟩
        cases index with
        | zero =>
            obtain rfl : line = text := by simpa using found
            obtain rfl := lexes.unique lexesAgain
            obtain ⟨report, here, same⟩ :=
              (reported_mark_iff listing number mark code span).mpr ⟨flaw, flawed, place⟩
            exact ⟨report, List.mem_append_left _ (List.mem_flatMap.mpr ⟨mark, among, here⟩), same⟩
        | succ index =>
            rw [← Nat.add_assoc, Nat.add_right_comm] at place
            obtain ⟨report, below, same⟩ :=
              ih.mpr ⟨index, text, mark, flaw, ⟨found, again, lexesAgain, among⟩, flawed, place⟩
            exact ⟨report, List.mem_append_right _ below, same⟩

theorem scanned_of_tokens {scanner last : Scanner} {number : Nat} {tokens : List Token}
    (ends : scanner.tokens = some (tokens, last)) (place : scanner.place = ⟨number, 1⟩)
    (start : scanner.lineStart = true) :
    ∃ reports, last.diagnostics = scanner.diagnostics ++ reports ∧
      Scanned scanner.listing number (tokenLines scanner.rest) tokens reports := by
  induction rest : scanner.rest using line_induction generalizing scanner number tokens with
  | step line tail single lineEnd ih =>
      have on : scanner.On number 0 line tail := ⟨rest, single, lineEnd, place⟩
      obtain ⟨_, _, middle, yields, _⟩ := scanner.exists_yields_of_tokens (by simp [ends])
      obtain ⟨marks, lexes, rfl, rfl, past⟩ := (yields_iff_lexes on _ _ _).mp yields
      rw [start] at lexes
      rw [tokens_of_yields yields] at ends
      rw [tokenLines_line line tail single lineEnd]
      have left : middle.rest = tail.tail := by rw [past]; rfl
      by_cases finished : tail.tail = []
      · have atEnd : middle.atEnd = true := by simp [Scanner.atEnd, left, finished]
        simp only [atEnd, if_true, Option.some.injEq, Prod.mk.injEq] at ends
        obtain ⟨rfl, rfl⟩ := ends
        refine ⟨_, by rw [past]; rfl, ?_⟩
        rw [if_pos finished]
        have nothing : Scanned scanner.listing (number + 1) [] [] [] := .nil
        simpa using Scanned.cons lexes nothing
      · have going : middle.atEnd = false := by simp [Scanner.atEnd, left, finished]
        have more : tail ≠ [] := by
          rintro rfl
          exact finished rfl
        simp only [going, Bool.false_eq_true, if_false, Option.map_eq_some_iff, Prod.mk.injEq] at ends
        obtain ⟨⟨later, _⟩, continued, rfl, rfl⟩ := ends
        have below : middle.place = ⟨number + 1, 1⟩ := by simp [past, pastLine, more]
        obtain ⟨reports, collected, scanned⟩ :=
          ih (append_ne_nil_of_tail line finished) continued below (by rw [past]; rfl) left
        refine ⟨marks.flatMap (·.reports scanner.listing number) ++ reports, ?_, ?_⟩
        · rw [collected, past, ← List.append_assoc]
          rfl
        · rw [if_neg finished]
          rw [show middle.listing = scanner.listing by rw [past]; rfl] at scanned
          simpa using Scanned.cons lexes scanned

theorem tokens_of_scanned {scanner : Scanner} {number : Nat} {tokens : List Token}
    {reports : List Diagnostic} (place : scanner.place = ⟨number, 1⟩)
    (start : scanner.lineStart = true)
    (scanned : Scanned scanner.listing number (tokenLines scanner.rest) tokens reports) :
    ∃ last, scanner.tokens = some (tokens, last) ∧
      last.diagnostics = scanner.diagnostics ++ reports := by
  induction rest : scanner.rest using line_induction generalizing scanner number tokens reports with
  | step line tail single lineEnd ih =>
      have on : scanner.On number 0 line tail := ⟨rest, single, lineEnd, place⟩
      rw [rest, tokenLines_line line tail single lineEnd] at scanned
      cases scanned with
      | @cons _ _ _ marks tokens reports lexes later =>
          have yields := lexes.yields on start
          rw [tokens_of_yields yields]
          by_cases finished : tail.tail = []
          · rw [if_pos finished] at later
            cases later
            rw [if_pos (by simp [atEnd, pastLine, finished]), List.append_nil]
            exact ⟨_, by rw [Nat.zero_add], rfl⟩
          · rw [if_neg finished] at later
            have more : tail ≠ [] := by
              rintro rfl
              exact finished rfl
            generalize past : scanner.pastLine number (0 + line.length) tail
              (marks.flatMap (·.reports scanner.listing number)) = middle
            have left : middle.rest = tail.tail := by rw [← past]; rfl
            have below : middle.place = ⟨number + 1, 1⟩ := by simp [← past, pastLine, more]
            have onward : Scanned middle.listing (number + 1) (tokenLines middle.rest) tokens reports := by
              rw [left, ← past]
              exact later
            obtain ⟨last, continued, collected⟩ :=
              ih (append_ne_nil_of_tail line finished) below (by rw [← past]; rfl) onward left
            refine ⟨last, ?_, ?_⟩
            · simp [continued, atEnd, left, finished]
            · rw [collected, ← past, ← List.append_assoc]
              rfl

/-- All tokens and reports of a text are those of its lines, in order. -/
theorem tokens_ofText_iff (text : List Char) (tokens : List Token) (reports : List Diagnostic) :
    (∃ last, (ofText text).tokens = some (tokens, last) ∧ last.diagnostics = reports) ↔
      Scanned (.ofText text) 1 (tokenLines text) tokens reports := by
  have place : (ofText text).place = ⟨1, 1⟩ := rfl
  constructor
  · rintro ⟨last, ends, rfl⟩
    obtain ⟨reports, collected, scanned⟩ := scanned_of_tokens ends place rfl
    rw [collected]
    exact scanned
  · intro scanned
    obtain ⟨last, ends, collected⟩ := tokens_of_scanned place rfl scanned
    exact ⟨last, ends, collected⟩

end Scanner

end Calculator
