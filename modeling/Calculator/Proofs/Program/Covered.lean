import Calculator.Proofs.Program.Scanned

/-! The span of a token covers the characters that spell it. -/

namespace Calculator

open Scanner

/-- A token of this kind is written with these characters, given what is wrong with it. -/
def Token.Kind.SpelledBy (covered : List Char) (flawed : Flaw → Prop) : Token.Kind → Prop
  | .text content =>
      (flawed .unterminated → covered = '"' :: content.toList) ∧
      (¬flawed .unterminated → covered = (Token.Kind.text content).render.toList)
  | .integer value =>
      covered ≠ [] ∧ (∀ c ∈ covered, c.isDigit = true) ∧
      (value.toInt = Nat.ofDigitChars 10 covered 0 ∨
        32767 < Nat.ofDigitChars 10 covered 0 ∧ value = 0 ∧ flawed .outOfRange)
  | .comment => ['/', '/'] <+: covered
  | kind => covered = kind.render.toList

namespace Lexeme

theorem spelled_ofWord (first : Bool) (word : List Char) (started : word ≠ []) :
    (ofWord first word).kind.SpelledBy word fun flaw => (ofWord first word).flaw = some flaw := by
  unfold ofWord
  split
  · exact String.toList_ofList.symm
  · split
    · next digits =>
        have run : ∀ c ∈ word, c.isDigit = true := List.all_eq_true.mp digits.2
        dsimp only
        split
        · next fits => exact ⟨started, run, .inl (Int16.toInt_ofNat_of_lt (Nat.lt_succ_of_le fits))⟩
        · next large => exact ⟨started, run, .inr ⟨Nat.lt_of_not_le large, rfl, rfl⟩⟩
    · split
      · next indirect =>
          rw [indirect]
          rfl
      · split
        · split
          · exact String.ofList_eq.mp rfl
          · exact String.toList_ofList.symm
        · exact String.toList_ofList.symm

theorem spelled_ofQuoted (text : List Char) :
    (ofQuoted text).kind.SpelledBy (ofQuoted text).text fun flaw => (ofQuoted text).flaw = some flaw := by
  unfold ofQuoted
  dsimp only
  split
  · constructor
    · intro flawed
      cases flawed
    · intro _
      simp [Token.Kind.render]
  · constructor
    · intro _
      simp
    · intro closed
      exact absurd rfl closed

theorem spelled_read (first : Bool) (c : Char) (rest : List Char) (dark : isWhiteSpace c = false) :
    (read first c rest).kind.SpelledBy (read first c rest).text
      fun flaw => (read first c rest).flaw = some flaw := by
  rcases read_cases first c rest with ⟨rfl, second, shape⟩ | ⟨_, shape⟩ | ⟨rfl, shape⟩ | ⟨rfl, shape⟩ |
    ⟨noQuote, noComma, shape⟩
  · obtain ⟨behind, rfl⟩ := List.head?_eq_some_iff.mp second
    rw [shape]
    exact ⟨_, rfl⟩
  · rw [shape]
    exact spelled_ofQuoted rest
  · rw [shape]
    rfl
  · rw [shape]
    rfl
  · rw [shape, ofWord_text]
    apply spelled_ofWord
    simp [endsWord, dark, noQuote, noComma]

/-- A comment takes in the rest of its line. -/
theorem read_text_of_comment (first : Bool) (c : Char) (rest : List Char) (single : '\n' ∉ c :: rest)
    (comment : (read first c rest).kind = .comment) : (read first c rest).text = c :: rest := by
  have source := readFrom_read first c rest
  rw [comment] at source
  have slashes : c = '/' ∧ rest.head? = some '/' := source
  rw [read, if_pos slashes]
  exact takeWhile_of_single single

end Lexeme

namespace Scanner

namespace Lexed

variable {text line : List Char} {index : Nat} {mark : Mark}

theorem bounds (lexed : Lexed (tokenLines text) index line mark) :
    mark.offset < mark.stop ∧ mark.stop ≤ line.length ∧ index + line.length ≤ text.length := by
  obtain ⟨marks, lexes, member⟩ := lexed.lexes
  have within := lexes.bounds mark member
  have fits := (getElem?_tokenLines lexed.found).2
  omega

theorem exists_read (lexed : Lexed (tokenLines text) index line mark) :
    ∃ start c rest, mark.lexeme = .read start c rest ∧ isWhiteSpace c = false ∧
      line.drop mark.offset = c :: rest ∧ '\n' ∉ c :: rest := by
  obtain ⟨marks, lexes, member⟩ := lexed.lexes
  obtain ⟨start, c, rest, shape, dark, _, place⟩ := lexes.read_at mark member
  rw [Nat.sub_zero] at place
  refine ⟨start, c, rest, shape, dark, place, ?_⟩
  rw [← place]
  exact fun later => (getElem?_tokenLines lexed.found).1 (List.mem_of_mem_drop later)

theorem text_eq (lexed : Lexed (tokenLines text) index line mark) :
    (line.take mark.stop).drop mark.offset = mark.lexeme.text := by
  obtain ⟨start, c, rest, shape, _, place, _⟩ := lexed.exists_read
  have reach := List.prefix_iff_eq_take.mp (Lexeme.read_text_prefix start c rest)
  rw [List.drop_take, place, Mark.stop, Nat.add_sub_cancel_left, shape]
  exact reach.symm

theorem spelled (lexed : Lexed (tokenLines text) index line mark) :
    mark.lexeme.kind.SpelledBy mark.lexeme.text fun flaw => mark.lexeme.flaw = some flaw := by
  obtain ⟨start, c, rest, shape, dark, _⟩ := lexed.exists_read
  rw [shape]
  exact Lexeme.spelled_read start c rest dark

theorem stop_of_comment (lexed : Lexed (tokenLines text) index line mark)
    (comment : mark.lexeme.kind = .comment) : mark.stop = line.length := by
  obtain ⟨start, c, rest, shape, _, place, single⟩ := lexed.exists_read
  have within := lexed.bounds
  rw [shape] at comment
  have whole := congrArg List.length (Lexeme.read_text_of_comment start c rest single comment)
  rw [← shape, ← place, List.length_drop] at whole
  rw [Mark.stop, whole]
  omega

theorem span_toNat (bound : text.length < 2 ^ 32 - 1)
    (lexed : Lexed (tokenLines text) index line mark) :
    (mark.span (1 + index)).startLine.toNat = 1 + index ∧
      (mark.span (1 + index)).startColumn.toNat = mark.offset + 1 ∧
      (mark.span (1 + index)).endLine.toNat = 1 + index ∧
      (mark.span (1 + index)).endColumn.toNat = mark.stop := by
  have bounds := lexed.bounds
  exact mark.span_toNat (1 + index) (by omega) (by omega) (by omega)

theorem eq_of_span {other : Mark} {otherIndex : Nat} {otherLine : List Char}
    (bound : text.length < 2 ^ 32 - 1) (lexed : Lexed (tokenLines text) index line mark)
    (again : Lexed (tokenLines text) otherIndex otherLine other)
    (same : mark.span (1 + index) = other.span (1 + otherIndex)) : mark = other := by
  -- The start line gives the line and with it the lexemes; among them the start column decides.
  obtain ⟨number, column, _⟩ := lexed.span_toNat bound
  obtain ⟨otherNumber, otherColumn, _⟩ := again.span_toNat bound
  rw [same, otherNumber] at number
  rw [same, otherColumn] at column
  obtain rfl : otherIndex = index := by omega
  obtain rfl : otherLine = line := Option.some.inj (again.found.symm.trans lexed.found)
  obtain ⟨marks, lexes, member⟩ := lexed.lexes
  obtain ⟨others, otherLexes, otherMember⟩ := again.lexes
  obtain rfl := lexes.unique otherLexes
  exact lexes.eq_of_offset mark member other otherMember (by omega)

theorem line?_startLine (bound : text.length < 2 ^ 32 - 1)
    (lexed : Lexed (tokenLines text) index line mark) :
    (Listing.ofText text).line? (mark.span (1 + index)).startLine = some (Listing.dropReturn line) :=
  Listing.line?_ofText bound (getElem?_splitOn_of_tokenLines lexed.found)

theorem line?_span (bound : text.length < 2 ^ 32 - 1)
    (plain : ∀ line ∈ text.splitOn '\n', line.getLast? ≠ some '\r')
    (lexed : Lexed (tokenLines text) index line mark) :
    (Listing.ofText text).line? (mark.span (1 + index)).startLine = some line := by
  have piece := getElem?_splitOn_of_tokenLines lexed.found
  rw [lexed.line?_startLine bound, Listing.dropReturn, if_neg (plain line (List.mem_of_getElem? piece))]

theorem covered?_span (bound : text.length < 2 ^ 32 - 1)
    (plain : ∀ line ∈ text.splitOn '\n', line.getLast? ≠ some '\r')
    (lexed : Lexed (tokenLines text) index line mark) :
    (Listing.ofText text).covered? (mark.span (1 + index)) = some mark.lexeme.text := by
  have bounds := lexed.bounds
  have found := lexed.line?_span bound plain
  obtain ⟨_, first, _, last⟩ := lexed.span_toNat bound
  have within : (Listing.ofText text).Within (mark.span (1 + index)) :=
    ⟨rfl, by omega, by omega, line, found, by omega⟩
  rw [Listing.covered?_of_within found (by omega) within, first, last, Nat.add_sub_cancel, lexed.text_eq]

theorem reported_span_iff {tokens : List Token} {reports : List Diagnostic}
    (bound : text.length < 2 ^ 32 - 1) (lexed : Lexed (tokenLines text) index line mark)
    (scanned : Scanned (.ofText text) 1 (tokenLines text) tokens reports) (flaw : Flaw) :
    Reported reports flaw.code (mark.span (1 + index)) ↔ mark.lexeme.flaw = some flaw := by
  rw [scanned.reported_iff]
  constructor
  · rintro ⟨otherIndex, otherLine, other, otherFlaw, again, flawed, code, same⟩
    obtain rfl := lexed.eq_of_span bound again same.symm
    obtain rfl : otherFlaw = flaw := by
      cases otherFlaw with
      | unterminated =>
          cases flaw with
          | unterminated => rfl
          | outOfRange => cases code
      | outOfRange =>
          cases flaw with
          | unterminated => cases code
          | outOfRange => rfl
    exact flawed
  · intro flawed
    exact ⟨index, line, mark, flaw, lexed, flawed, rfl, rfl⟩

end Lexed

/-- The span of a token covers the characters that spell it, and that of a comment the rest of its line. -/
theorem covered?_spelledBy (text : List Char) (bound : text.length < 2 ^ 32 - 1)
    (plain : ∀ line ∈ text.splitOn '\n', line.getLast? ≠ some '\r') {tokens : List Token} {last : Scanner}
    (ends : (ofText text).tokens = some (tokens, last)) :
    ∀ token ∈ tokens, token.isEndOfLine = false → ∃ covered,
      (Listing.ofText text).covered? token.span = some covered ∧
      token.kind.SpelledBy covered (fun flaw => Reported last.diagnostics flaw.code token.span) ∧
      (token.kind = .comment → ∃ line, (Listing.ofText text).line? token.span.startLine = some line ∧
        token.span.endColumn.toNat = line.length) := by
  have scanned := (tokens_ofText_iff text tokens last.diagnostics).mp ⟨last, ends, rfl⟩
  intro token member inside
  obtain ⟨index, line, mark, lexed, rfl⟩ := scanned.exists_lexed token member inside
  -- Spans tell lexemes apart, so what is reported of the span is the lexeme's own flaw.
  have flaws : (fun flaw => Reported last.diagnostics flaw.code (mark.span (1 + index))) =
      fun flaw => mark.lexeme.flaw = some flaw := by
    funext flaw
    exact propext (lexed.reported_span_iff bound scanned flaw)
  refine ⟨mark.lexeme.text, lexed.covered?_span bound plain, ?_, ?_⟩
  · simp only [Mark.token, flaws]
    exact lexed.spelled
  · intro comment
    refine ⟨line, lexed.line?_span bound plain, ?_⟩
    rw [← lexed.stop_of_comment comment]
    exact (lexed.span_toNat bound).2.2.2

theorem covered?_spelledBy_large_operand :
    ∃ tokens last,
      (ofText ['X', ' ', '4', '0', '0', '0', '0', '\n', '"', 'é']).tokens = some (tokens, last) ∧
      ⟨.integer 0, ⟨1, 3, 1, 7⟩⟩ ∈ tokens ∧ ∃ covered,
        (Listing.ofText ['X', ' ', '4', '0', '0', '0', '0', '\n', '"', 'é']).covered? ⟨1, 3, 1, 7⟩ =
          some covered ∧
        (Token.Kind.integer 0).SpelledBy covered
          (fun flaw => Reported last.diagnostics flaw.code ⟨1, 3, 1, 7⟩) := by
  have above : Lexes true 0 ['X', ' ', '4', '0', '0', '0', '0'] [⟨0, ⟨['X'], .letter 'X', none⟩⟩,
      ⟨2, ⟨['4', '0', '0', '0', '0'], .integer 0, some .outOfRange⟩⟩] :=
    .lexeme rfl rfl rfl (.lexeme rfl rfl rfl (.blank rfl))
  have below : Lexes true 0 ['"', 'é'] [⟨0, ⟨['"', 'é'], .text (.ofList ['é']), some .unterminated⟩⟩] :=
    .lexeme rfl rfl rfl (.blank rfl)
  obtain ⟨last, ends, _⟩ :=
    (tokens_ofText_iff ['X', ' ', '4', '0', '0', '0', '0', '\n', '"', 'é'] _ _).mpr
      (.cons above (.cons below .nil))
  have member := List.mem_cons_of_mem (Mark.token 1 ⟨0, ⟨['X'], .letter 'X', none⟩⟩)
    (List.mem_cons_self (a := (⟨.integer 0, ⟨1, 3, 1, 7⟩⟩ : Token)) (l := []))
  refine ⟨_, last, ends, List.mem_append_left _ member, ?_⟩
  obtain ⟨covered, found, spelled, _⟩ :=
    covered?_spelledBy _ (by decide) (by decide) ends _ (List.mem_append_left _ member) rfl
  exact ⟨covered, found, spelled⟩

end Scanner

end Calculator
