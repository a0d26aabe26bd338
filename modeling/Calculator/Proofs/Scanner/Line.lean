import Calculator.Proofs.Feed
import Calculator.Proofs.Scanner.Lexeme
import Calculator.Scanner

/-! A scanner on its way along a line. Where the line ends it depends on the characters of the line alone
what is handed out, and a scanner that makes no headway never reaches the end. -/

namespace Calculator

namespace Place

theorem afterText_of_not_mem (place : Place) (text : List Char) (single : '\n' ∉ text) :
    place.afterText text = ⟨place.line, place.column + text.length⟩ := by
  induction text generalizing place with
  | nil => rfl
  | cons c text ih =>
      simp only [List.mem_cons, not_or] at single
      have step : place.after c = ⟨place.line, place.column + 1⟩ := by
        simp [after, Ne.symm single.1]
      rw [afterText, List.foldl_cons, step]
      have tail := ih ⟨place.line, place.column + 1⟩ single.2
      rw [afterText] at tail
      rw [tail]
      simp [Nat.add_assoc, Nat.add_comm 1]

end Place

theorem isBlank_newline : isBlank '\n' = false := by decide

theorem newline_not_mem_blanks (text : List Char) : '\n' ∉ text.takeWhile isBlank := by
  intro member
  simpa [isBlank_newline] using List.mem_takeWhile_imp member

namespace Lexeme

theorem read_kind_ne_endOfLine (first : Bool) (c : Char) (rest : List Char) :
    (read first c rest).kind ≠ .endOfLine := by
  intro kind
  have source := readFrom_read first c rest
  rw [kind] at source
  exact source

end Lexeme

namespace Scanner

theorem ahead_cases (scanner : Scanner) :
    scanner.rest.dropWhile isBlank = [] ∨
    (∃ rest, scanner.rest.dropWhile isBlank = '\n' :: rest) ∨
    ∃ c rest, scanner.rest.dropWhile isBlank = c :: rest ∧ c ≠ '\n' := by
  cases ahead : scanner.rest.dropWhile isBlank with
  | nil => exact .inl rfl
  | cons c rest =>
      by_cases newline : c = '\n'
      · exact .inr (.inl ⟨rest, by rw [newline]⟩)
      · exact .inr (.inr ⟨c, rest, rfl, newline⟩)

theorem ahead_of_single (scanner : Scanner) (single : '\n' ∉ scanner.rest) :
    scanner.rest.dropWhile isBlank = [] ∨
    ∃ c rest, scanner.rest.dropWhile isBlank = c :: rest ∧ c ≠ '\n' := by
  rcases ahead_cases scanner with closes | ⟨rest, newline⟩ | lexeme
  · exact .inl closes
  · have member : '\n' ∈ scanner.rest.dropWhile isBlank := by simp [newline]
    exact absurd ((List.dropWhile_suffix isBlank).mem member) single
  · exact .inr lexeme

def tokenPlace (scanner : Scanner) : Place :=
  scanner.place.afterText (scanner.rest.takeWhile isBlank)

theorem next_of_end (scanner : Scanner) (closes : scanner.rest.dropWhile isBlank = []) :
    scanner.next = (⟨.endOfLine, scanner.tokenPlace.span⟩,
      { scanner with rest := [], place := scanner.tokenPlace, lineStart := true }) := by
  simp only [next, skipBlanks, closes, tokenPlace]

theorem next_of_newline (scanner : Scanner) (rest : List Char)
    (closes : scanner.rest.dropWhile isBlank = '\n' :: rest) :
    scanner.next = (⟨.endOfLine, scanner.tokenPlace.span⟩,
      { scanner with rest := rest, place := ⟨scanner.tokenPlace.line + 1, 1⟩, lineStart := true }) := by
  simp only [next, skipBlanks, closes, tokenPlace, if_true, Place.after]

theorem next_of_lexeme (scanner : Scanner) (c : Char) (rest : List Char)
    (found : scanner.rest.dropWhile isBlank = c :: rest) (inside : c ≠ '\n') :
    scanner.next = Scanner.take { scanner with rest := c :: rest, place := scanner.tokenPlace }
      (.read scanner.lineStart c rest) := by
  simp only [next, skipBlanks, found, tokenPlace, inside, if_false]

/-- A character stands next that ends every word without being a blank or a line end. -/
def Stalled (scanner : Scanner) : Prop :=
  ∃ c rest, scanner.rest.dropWhile isBlank = c :: rest ∧ c ≠ '\n' ∧ isWhiteSpace c = true

theorem isEndOfLine_next_of_lexeme (scanner : Scanner) (c : Char) (rest : List Char)
    (found : scanner.rest.dropWhile isBlank = c :: rest) (inside : c ≠ '\n') :
    scanner.next.1.isEndOfLine = false := by
  rw [next_of_lexeme scanner c rest found inside]
  simpa [take, Token.isEndOfLine] using Lexeme.read_kind_ne_endOfLine scanner.lineStart c rest

theorem Stalled.next {scanner : Scanner} (stalled : Stalled scanner) :
    scanner.next.1.isEndOfLine = false ∧ Stalled scanner.next.2 := by
  obtain ⟨c, rest, found, inside, white⟩ := stalled
  refine ⟨isEndOfLine_next_of_lexeme scanner c rest found inside, c, rest, ?_, inside, white⟩
  have empty := (Lexeme.read_text_eq_nil_iff scanner.lineStart c rest inside).mpr white
  have notBlank : isBlank c = false := by
    have := List.head?_dropWhile_not isBlank scanner.rest
    simpa [found] using this
  rw [next_of_lexeme scanner c rest found inside]
  simp [take, empty, notBlank]

theorem not_stalled_of_yields {scanner rest : Scanner} {line : List Token} {ending : Token}
    (yields : TokenFeed.Yields scanner line ending rest) : ¬Stalled scanner := by
  induction yields with
  | ending step closes =>
      intro stalled
      have going := stalled.next.1
      rw [show Scanner.next _ = _ from step] at going
      simp [closes] at going
  | token step _ _ ih =>
      intro stalled
      have again := stalled.next.2
      rw [show Scanner.next _ = _ from step] at again
      exact ih again

theorem isEndOfLine_next_of_end (scanner : Scanner) (closes : scanner.rest.dropWhile isBlank = []) :
    scanner.next.1.isEndOfLine = true := by
  rw [next_of_end scanner closes]
  rfl

theorem isEndOfLine_next_of_newline (scanner : Scanner) (rest : List Char)
    (closes : scanner.rest.dropWhile isBlank = '\n' :: rest) :
    scanner.next.1.isEndOfLine = true := by
  rw [next_of_newline scanner rest closes]
  rfl

theorem exists_lexeme (scanner : Scanner) (inside : scanner.next.1.isEndOfLine = false) :
    ∃ c rest, scanner.rest.dropWhile isBlank = c :: rest ∧ c ≠ '\n' := by
  rcases ahead_cases scanner with closes | ⟨rest, closes⟩ | lexeme
  · rw [isEndOfLine_next_of_end scanner closes] at inside
    contradiction
  · rw [isEndOfLine_next_of_newline scanner rest closes] at inside
    contradiction
  · exact lexeme

theorem length_next_lt (scanner : Scanner) (inside : scanner.next.1.isEndOfLine = false)
    (moving : ¬Stalled scanner) : scanner.next.2.rest.length < scanner.rest.length := by
  obtain ⟨c, rest, found, notNewline⟩ := exists_lexeme scanner inside
  have dark : ¬isWhiteSpace c = true := fun white => moving ⟨c, rest, found, notNewline, white⟩
  have covers := mt (Lexeme.read_text_eq_nil_iff scanner.lineStart c rest notNewline).mp dark
  have positive := List.length_pos_iff.mpr covers
  have skipped := (List.dropWhile_suffix isBlank (l := scanner.rest)).length_le
  rw [found] at skipped
  rw [next_of_lexeme scanner c rest found notNewline]
  simp only [take, List.length_drop]
  simp only [List.length_cons] at skipped ⊢
  omega

instance : TokenFeed.Lawful Scanner where
  size_lt := by
    intro scanner middle last token ending line step inside tail
    have moved : scanner.next = (token, middle) := step
    -- A stalled scanner hands out the same empty word for ever, but this line ends.
    have moving : ¬Stalled scanner := by
      intro stalled
      have again := stalled.next.2
      rw [moved] at again
      exact not_stalled_of_yields tail again
    have shorter := length_next_lt scanner (by rw [moved]; exact inside) moving
    rw [moved] at shorter
    exact shorter

theorem tokenPlace_line (scanner : Scanner) : scanner.tokenPlace.line = scanner.place.line := by
  rw [tokenPlace, Place.afterText_of_not_mem _ _ (newline_not_mem_blanks scanner.rest)]

theorem next_startLine (scanner : Scanner) :
    scanner.next.1.span.startLine = UInt32.ofNat scanner.place.line := by
  rw [← tokenPlace_line]
  rcases ahead_cases scanner with closes | ⟨rest, closes⟩ | ⟨c, rest, found, inside⟩
  · rw [next_of_end scanner closes]
    rfl
  · rw [next_of_newline scanner rest closes]
    rfl
  · rw [next_of_lexeme scanner c rest found inside]
    rfl

theorem next_listing (scanner : Scanner) : scanner.next.2.listing = scanner.listing := by
  rcases ahead_cases scanner with closes | ⟨rest, closes⟩ | ⟨c, rest, found, inside⟩
  · rw [next_of_end scanner closes]
  · rw [next_of_newline scanner rest closes]
  · rw [next_of_lexeme scanner c rest found inside]
    rfl

theorem next_place_line (scanner : Scanner) (inside : scanner.next.1.isEndOfLine = false) :
    scanner.next.2.place.line = scanner.place.line := by
  obtain ⟨c, rest, found, notNewline⟩ := exists_lexeme scanner inside
  have single := Lexeme.newline_not_mem_read_text scanner.lineStart c rest notNewline
  have start := tokenPlace_line scanner
  rw [next_of_lexeme scanner c rest found notNewline]
  simp only [take, Place.afterText_of_not_mem _ _ single]
  exact start

theorem next_rest_suffix (scanner : Scanner) : scanner.next.2.rest <:+ scanner.rest := by
  have skipped := List.dropWhile_suffix isBlank (l := scanner.rest)
  rcases ahead_cases scanner with closes | ⟨rest, closes⟩ | ⟨c, rest, found, inside⟩
  · rw [next_of_end scanner closes]
    exact List.nil_suffix
  · rw [next_of_newline scanner rest closes]
    rw [closes] at skipped
    exact (List.suffix_cons '\n' rest).trans skipped
  · rw [next_of_lexeme scanner c rest found inside]
    rw [found] at skipped
    exact (List.drop_suffix _ _).trans skipped

def Reads (scanner : Scanner) (kind : Token.Kind) (tail : List Char) : Prop :=
  ∃ token middle, scanner.next = (token, middle) ∧ token.kind = kind ∧ middle.rest = tail ∧
    middle.diagnostics = scanner.diagnostics

theorem reads_of_lexeme {scanner : Scanner} {c : Char} {rest text : List Char} {kind : Token.Kind}
    (ahead : scanner.rest = c :: rest) (dark : isBlank c = false) (inside : c ≠ '\n')
    (lexeme : Lexeme.read scanner.lineStart c rest = ⟨text, kind, none⟩) :
    scanner.Reads kind ((c :: rest).drop text.length) := by
  have found : scanner.rest.dropWhile isBlank = c :: rest := by simp [ahead, dark]
  refine ⟨_, _, next_of_lexeme scanner c rest found inside, ?_⟩
  rw [lexeme]
  simp [faultOf]

structure ReadsLine (scanner : Scanner) (line : List Token) (ending : Token) (last : Scanner)
    (tail : List Char) : Prop where
  yields : TokenFeed.Yields scanner line ending last
  rest : last.rest = tail
  lineStart : last.lineStart = true
  diagnostics : last.diagnostics = scanner.diagnostics

theorem readsLine_of_lineEnd {scanner : Scanner} {tail : List Char} (rest : scanner.rest = tail)
    (lineEnd : AtLineEnd tail) : ∃ ending last, ReadsLine scanner [] ending last tail.tail := by
  cases tail with
  | nil =>
      have closes : scanner.rest.dropWhile isBlank = [] := by rw [rest]; rfl
      exact ⟨_, _, .ending (next_of_end scanner closes) rfl, rfl, rfl, rfl⟩
  | cons c more =>
      have newline : c = '\n' := lineEnd c rfl
      have closes : scanner.rest.dropWhile isBlank = '\n' :: more := by
        rw [rest, newline]
        rfl
      exact ⟨_, _, .ending (next_of_newline scanner more closes) rfl, rfl, rfl, rfl⟩

theorem ReadsLine.token {scanner middle last : Scanner} {line : List Token} {token ending : Token}
    {tail : List Char} (step : scanner.next = (token, middle)) (inside : token.kind ≠ .endOfLine)
    (silent : middle.diagnostics = scanner.diagnostics)
    (reads : ReadsLine middle line ending last tail) :
    ReadsLine scanner (token :: line) ending last tail := by
  refine ⟨.token step ?_ reads.yields, reads.rest, reads.lineStart, reads.diagnostics.trans silent⟩
  simpa [Token.isEndOfLine] using inside

/-- Two scanners stand at the same place of a line, and only one of them sees what follows the line. -/
structure Along (tail : List Char) (whole part : Scanner) : Prop where
  rest : whole.rest = part.rest ++ tail
  place : whole.place = part.place
  lineStart : whole.lineStart = part.lineStart

namespace Along

variable {tail : List Char} {whole part : Scanner}

theorem dropWhile_eq (along : Along tail whole part) (lineEnd : AtLineEnd tail) :
    whole.rest.dropWhile isBlank = part.rest.dropWhile isBlank ++ tail := by
  rw [along.rest, dropWhile_append_lineEnd isBlank_newline _ lineEnd]

theorem tokenPlace_eq (along : Along tail whole part) (lineEnd : AtLineEnd tail) :
    whole.tokenPlace = part.tokenPlace := by
  rw [tokenPlace, along.rest, along.place, takeWhile_append_lineEnd isBlank_newline _ lineEnd]
  rfl

theorem next_of_lexeme (along : Along tail whole part) (lineEnd : AtLineEnd tail) (c : Char)
    (rest : List Char) (found : part.rest.dropWhile isBlank = c :: rest) (inside : c ≠ '\n') :
    whole.next.1 = part.next.1 ∧ Along tail whole.next.2 part.next.2 := by
  have foundWhole : whole.rest.dropWhile isBlank = c :: (rest ++ tail) := by
    rw [along.dropWhile_eq lineEnd, found, List.cons_append]
  have same := Lexeme.read_append lineEnd part.lineStart c rest
  have fits := (Lexeme.read_text_prefix part.lineStart c rest).length_le
  rw [Scanner.next_of_lexeme whole c _ foundWhole inside,
    Scanner.next_of_lexeme part c rest found inside, along.lineStart, same,
    along.tokenPlace_eq lineEnd]
  refine ⟨rfl, ?_, rfl, rfl⟩
  simp only [take]
  rw [← List.cons_append, List.drop_append_of_le_length fits]

theorem next_of_end (along : Along tail whole part) (lineEnd : AtLineEnd tail)
    (closes : part.rest.dropWhile isBlank = []) :
    whole.next.1 = part.next.1 ∧ whole.next.2.rest = tail.tail ∧ whole.next.2.lineStart = true ∧
      (tail ≠ [] → whole.next.2.place = ⟨part.tokenPlace.line + 1, 1⟩) := by
  have overWhole : whole.rest.dropWhile isBlank = tail := by
    rw [along.dropWhile_eq lineEnd, closes, List.nil_append]
  rw [Scanner.next_of_end part closes]
  cases tail with
  | nil =>
      rw [Scanner.next_of_end whole overWhole, along.tokenPlace_eq lineEnd]
      simp
  | cons c more =>
      obtain rfl := lineEnd c rfl
      rw [Scanner.next_of_newline whole more overWhole, along.tokenPlace_eq lineEnd]
      simp

/-- A line that ends is handed out alike, whether or not anything follows it. -/
theorem of_yields (lineEnd : AtLineEnd tail) {last : Scanner} {line : List Token} {ending : Token}
    (yields : TokenFeed.Yields whole line ending last) (along : Along tail whole part)
    (single : '\n' ∉ part.rest) :
    (∃ partLast, TokenFeed.Yields part line ending partLast) ∧ last.rest = tail.tail ∧
      last.lineStart = true ∧ (tail ≠ [] → last.place = ⟨part.place.line + 1, 1⟩) := by
  -- The scanner that sees everything leads. The other keeps up with it, and neither can meet an end of
  -- line where the other meets a lexeme.
  induction yields generalizing part with
  | @ending whole last token step closes =>
      obtain ⟨rfl, rfl⟩ : whole.next.1 = token ∧ whole.next.2 = last := Prod.mk.inj step
      rcases ahead_of_single part single with blank | ⟨c, rest, found, inside⟩
      · obtain ⟨same, behind, start, below⟩ := along.next_of_end lineEnd blank
        rw [tokenPlace_line] at below
        exact ⟨⟨part.next.2, .ending (Prod.ext same.symm rfl) closes⟩, behind, start, below⟩
      · have same := (along.next_of_lexeme lineEnd c rest found inside).1
        rw [same, isEndOfLine_next_of_lexeme part c rest found inside] at closes
        contradiction
  | @token whole middle last token ending line step inside tail ih =>
      obtain ⟨rfl, rfl⟩ : whole.next.1 = token ∧ whole.next.2 = middle := Prod.mk.inj step
      rcases ahead_of_single part single with blank | ⟨c, rest, found, notNewline⟩
      · have same := (along.next_of_end lineEnd blank).1
        rw [same, isEndOfLine_next_of_end part blank] at inside
        contradiction
      · obtain ⟨same, onward⟩ := along.next_of_lexeme lineEnd c rest found notNewline
        have later : '\n' ∉ part.next.2.rest := fun member => single ((next_rest_suffix part).mem member)
        obtain ⟨⟨partLast, partTail⟩, behind, start, below⟩ := ih onward later
        rw [same] at inside ⊢
        rw [next_place_line part inside] at below
        exact ⟨⟨partLast, .token rfl inside partTail⟩, behind, start, below⟩

end Along

theorem startLine_of_yields {scanner last : Scanner} {line : List Token} {ending : Token}
    (yields : TokenFeed.Yields scanner line ending last) :
    (∀ token ∈ line, token.span.startLine = UInt32.ofNat scanner.place.line) ∧
      ending.span.startLine = UInt32.ofNat scanner.place.line := by
  induction yields with
  | @ending scanner last token step closes =>
      obtain ⟨rfl, rfl⟩ : scanner.next.1 = token ∧ scanner.next.2 = last := Prod.mk.inj step
      exact ⟨by simp, next_startLine scanner⟩
  | @token scanner middle last token ending line step inside tail ih =>
      obtain ⟨rfl, rfl⟩ : scanner.next.1 = token ∧ scanner.next.2 = middle := Prod.mk.inj step
      rw [next_place_line scanner inside] at ih
      refine ⟨?_, ih.2⟩
      intro token member
      rcases List.mem_cons.mp member with rfl | later
      · exact next_startLine scanner
      · exact ih.1 token later

/-- What every token leaves true is true behind a line. -/
theorem holds_of_yields {motive : Scanner → Prop}
    (step : ∀ scanner, motive scanner → motive scanner.next.2) {scanner last : Scanner}
    {line : List Token} {ending : Token} (yields : TokenFeed.Yields scanner line ending last)
    (holds : motive scanner) : motive last := by
  induction yields with
  | @ending scanner last token moves closes =>
      obtain ⟨rfl, rfl⟩ : scanner.next.1 = token ∧ scanner.next.2 = last := Prod.mk.inj moves
      exact step scanner holds
  | @token scanner middle last token ending line moves inside tail ih =>
      obtain ⟨rfl, rfl⟩ : scanner.next.1 = token ∧ scanner.next.2 = middle := Prod.mk.inj moves
      exact ih (step scanner holds)

theorem listing_of_yields {scanner last : Scanner} {line : List Token} {ending : Token}
    (yields : TokenFeed.Yields scanner line ending last) : last.listing = scanner.listing :=
  holds_of_yields (fun middle same => (next_listing middle).trans same) yields rfl

end Scanner

end Calculator
