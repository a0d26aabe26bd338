import Calculator.Proofs.Program.Scanned

/-! The spans of a text's tokens lie in the text one behind the other, and between them is nothing but
white space. -/

namespace Calculator

namespace Place

def ofIndex (number : Nat) (text : List Char) (index : Nat) : Place :=
  ⟨number + (text.take index).count '\n', 1 + ((text.take index).reverse.takeWhile (· != '\n')).length⟩

def Before (first second : Place) : Prop :=
  first.line < second.line ∨ first.line = second.line ∧ first.column < second.column

theorem ofIndex_append {number index : Nat} {text : List Char} (within : index ≤ text.length)
    (tail : List Char) : ofIndex number (text ++ tail) index = ofIndex number text index := by
  rw [ofIndex, ofIndex, List.take_append_of_le_length within]

theorem ofIndex_of_single {number index : Nat} {line : List Char} (single : '\n' ∉ line)
    (within : index ≤ line.length) : ofIndex number line index = ⟨number, 1 + index⟩ := by
  have early : '\n' ∉ line.take index := fun member => single (List.mem_of_mem_take member)
  have whole : (line.take index).reverse.takeWhile (· != '\n') = (line.take index).reverse :=
    takeWhile_of_single (mt List.mem_reverse.mp early)
  rw [ofIndex, whole, List.count_eq_zero.mpr early, List.length_reverse, List.length_take,
    Nat.min_eq_left within, Nat.add_zero]

theorem ofIndex_below {line : List Char} (single : '\n' ∉ line) (number : Nat) (rest : List Char)
    (index : Nat) :
    ofIndex number (line ++ '\n' :: rest) (line.length + 1 + index) = ofIndex (number + 1) rest index := by
  have split : (line ++ '\n' :: rest).take (line.length + 1 + index) = line ++ '\n' :: rest.take index := by
    rw [Nat.add_assoc, List.take_length_add_append, Nat.add_comm 1, List.take_succ_cons]
  have lineEnd : AtLineEnd ('\n' :: line.reverse) := by
    intro c head
    simpa using head.symm
  have column := takeWhile_append_lineEnd (p := (· != '\n')) (by decide) (rest.take index).reverse lineEnd
  rw [ofIndex, ofIndex, split, List.reverse_append, List.reverse_cons, List.append_assoc,
    List.singleton_append, column, List.count_append, List.count_cons_self, List.count_eq_zero.mpr single]
  simp only [Place.mk.injEq, and_true]
  omega

theorem before_of_single {number first second : Nat} {line : List Char} (single : '\n' ∉ line)
    (order : first < second) (within : second ≤ line.length) :
    (ofIndex number line first).Before (ofIndex number line second) := by
  rw [ofIndex_of_single single (by omega), ofIndex_of_single single within]
  exact .inr ⟨rfl, Nat.add_lt_add_left order 1⟩

theorem not_before_of_single {number first second : Nat} {line : List Char} (single : '\n' ∉ line)
    (order : first ≤ second) (within : second ≤ line.length) :
    ¬(ofIndex number line second).Before (ofIndex number line first) := by
  rw [ofIndex_of_single single within, ofIndex_of_single single (by omega)]
  simp only [Before]
  omega

theorem line_le_ofIndex (number : Nat) (text : List Char) (index : Nat) :
    number ≤ (ofIndex number text index).line := Nat.le_add_right _ _

theorem ofIndex_line_of_single {line : List Char} (single : '\n' ∉ line) (number index : Nat) :
    (ofIndex number line index).line = number := by
  have early : '\n' ∉ line.take index := fun member => single (List.mem_of_mem_take member)
  rw [ofIndex, List.count_eq_zero.mpr early, Nat.add_zero]

end Place

namespace Span

def first (span : Span) : Place := ⟨span.startLine.toNat, span.startColumn.toNat⟩

def last (span : Span) : Place := ⟨span.endLine.toNat, span.endColumn.toNat⟩

def Covers (span : Span) (place : Place) : Prop := ¬place.Before span.first ∧ ¬span.last.Before place

end Span

theorem Lexes.token_span {number : Nat} {text : List Char} {marks : List Mark}
    (lexes : Lexes true 0 text marks) (single : '\n' ∉ text) (positive : 1 ≤ number)
    (bound : number + text.length < 2 ^ 32) : ∀ mark ∈ marks,
      (mark.token number).isEndOfLine = false ∧
      (mark.token number).span.first = .ofIndex number text mark.offset ∧
      (mark.token number).span.last = .ofIndex number text (mark.stop - 1) := by
  intro mark member
  have bounds := lexes.bounds mark member
  obtain ⟨startLine, startColumn, endLine, endColumn⟩ :=
    mark.span_toNat number (by omega) (by omega) (by omega)
  refine ⟨?_, ?_, ?_⟩
  · obtain ⟨start, c, rest, shape, _⟩ := lexes.read_at mark member
    simpa [Mark.token, Token.isEndOfLine, shape] using Lexeme.read_kind_ne_endOfLine start c rest
  · rw [Place.ofIndex_of_single single (by omega), Nat.add_comm 1]
    simp only [Span.first, Mark.token, startLine, startColumn]
  · rw [Place.ofIndex_of_single single (by omega), Nat.add_sub_cancel' (by omega)]
    simp only [Span.last, Mark.token, endLine, endColumn]

theorem lineEnding_span {number : Nat} {text : List Char} (single : '\n' ∉ text)
    (positive : 1 ≤ number) (bound : number + text.length < 2 ^ 32) :
    (lineEnding number text.length).span.first = .ofIndex number text text.length ∧
      (lineEnding number text.length).span.last = .ofIndex number text text.length := by
  have lines : number < 2 ^ 32 := by omega
  have columns : text.length + 1 < 2 ^ 32 := by omega
  rw [Place.ofIndex_of_single single (Nat.le_refl _), Nat.add_comm 1]
  simp only [Span.first, Span.last, lineEnding, Place.span, Span.point, toNat_ofNat_of_lt lines,
    toNat_ofNat_of_lt columns, and_self]

/-- Tokens whose spans lie in a text one behind the other and leave out nothing but white space. The
line ends stand at the given indices. -/
structure Tiles (number : Nat) (text : List Char) (ends : List Nat) (tokens : List Token) : Prop where
  extent : ∀ token ∈ tokens, token.isEndOfLine = false → ∃ first last, first ≤ last ∧
    last < text.length ∧ token.span.first = .ofIndex number text first ∧
    token.span.last = .ofIndex number text last ∧ token.span.startLine = token.span.endLine
  ordered : tokens.Pairwise fun token later => token.span.last.Before later.span.first
  covered : ∀ index c, text[index]? = some c → c ∈ [' ', '\t', '\r', '\n'] ∨
    ∃ token ∈ tokens, token.isEndOfLine = false ∧ token.span.Covers (.ofIndex number text index)
  lineEnds : (tokens.filter (·.isEndOfLine)).map (fun token => (token.span.first, token.span.last)) =
    ends.map fun index => (.ofIndex number text index, .ofIndex number text index)

namespace Tiles

theorem places {number : Nat} {text : List Char} {ends : List Nat} {tokens : List Token}
    (tiles : Tiles number text ends tokens) : ∀ token ∈ tokens, ∃ first last,
      token.span.first = .ofIndex number text first ∧ token.span.last = .ofIndex number text last := by
  intro token member
  by_cases closes : token.isEndOfLine = true
  · have listed : (token.span.first, token.span.last) ∈
        ends.map fun index => (Place.ofIndex number text index, Place.ofIndex number text index) := by
      rw [← tiles.lineEnds]
      exact List.mem_map_of_mem (List.mem_filter.mpr ⟨member, closes⟩)
    obtain ⟨index, _, places⟩ := List.mem_map.mp listed
    obtain ⟨first, last⟩ := Prod.mk.inj places
    exact ⟨index, index, first.symm, last.symm⟩
  · obtain ⟨first, last, _, _, start, stop, _⟩ := tiles.extent token member (by simpa using closes)
    exact ⟨first, last, start, stop⟩

theorem line {number : Nat} {text : List Char} {marks : List Mark} (lexes : Lexes true 0 text marks)
    (single : '\n' ∉ text) (positive : 1 ≤ number) (bound : number + text.length < 2 ^ 32) :
    Tiles number text [text.length] (marks.map (·.token number) ++ [lineEnding number text.length]) := by
  have spans := lexes.token_span single positive bound
  obtain ⟨endFirst, endLast⟩ := lineEnding_span single positive bound
  constructor
  · intro token member inside
    rcases List.mem_append.mp member with listed | final
    · obtain ⟨mark, among, rfl⟩ := List.mem_map.mp listed
      have bounds := lexes.bounds mark among
      obtain ⟨_, first, last⟩ := spans mark among
      exact ⟨mark.offset, mark.stop - 1, by omega, by omega, first, last, rfl⟩
    · rw [List.mem_singleton.mp final] at inside
      cases inside
  · apply List.pairwise_append.mpr
    refine ⟨?_, List.pairwise_singleton _ _, ?_⟩
    · rw [List.pairwise_map]
      apply lexes.ordered.imp_of_mem
      intro mark later among behind order
      have bounds := lexes.bounds mark among
      have below := lexes.bounds later behind
      rw [(spans mark among).2.2, (spans later behind).2.1]
      exact Place.before_of_single single (by omega) (by omega)
    · intro token listed ending final
      obtain ⟨mark, among, rfl⟩ := List.mem_map.mp listed
      have bounds := lexes.bounds mark among
      rw [List.mem_singleton.mp final, endFirst, (spans mark among).2.2]
      exact Place.before_of_single single (by omega) (Nat.le_refl _)
  · intro index c character
    have within := (List.getElem?_eq_some_iff.mp character).1
    rcases lexes.covered index c character with blank | ⟨mark, among, lower, upper⟩
    · left
      simp only [isBlank, Bool.or_eq_true, beq_iff_eq] at blank
      rcases blank with (rfl | rfl) | rfl
      all_goals simp
    · right
      have bounds := lexes.bounds mark among
      obtain ⟨inside, first, last⟩ := spans mark among
      refine ⟨mark.token number, List.mem_append_left _ (List.mem_map_of_mem among), inside, ?_⟩
      rw [Span.Covers, first, last]
      exact ⟨Place.not_before_of_single single (by omega) (by omega),
        Place.not_before_of_single single (by omega) (by omega)⟩
  · have none : (marks.map (·.token number)).filter (·.isEndOfLine) = [] := by
      rw [List.filter_eq_nil_iff]
      intro token listed
      obtain ⟨mark, among, rfl⟩ := List.mem_map.mp listed
      simp [(spans mark among).1]
    have closes : (lineEnding number text.length).isEndOfLine = true := rfl
    rw [List.filter_append, none, List.nil_append, List.filter_cons_of_pos closes, List.filter_nil,
      List.map_singleton, List.map_singleton, endFirst, endLast]

theorem nil (number : Nat) : Tiles number [] [] [] := by
  constructor
  · simp
  · exact .nil
  · simp
  · rfl

/-- The tilings of a line and of the text below it make one of both. -/
theorem append {number : Nat} {line rest : List Char} {ends : List Nat} {tokens later : List Token}
    (above : Tiles number line [line.length] tokens) (single : '\n' ∉ line)
    (below : Tiles (number + 1) rest ends later) :
    Tiles number (line ++ '\n' :: rest) (line.length :: ends.map (line.length + 1 + ·))
      (tokens ++ later) := by
  constructor
  · intro token member inside
    rcases List.mem_append.mp member with early | late
    · obtain ⟨first, last, order, within, start, stop, oneLine⟩ := above.extent token early inside
      refine ⟨first, last, order, by simp; omega, ?_, ?_, oneLine⟩
      · rw [start, Place.ofIndex_append (by omega)]
      · rw [stop, Place.ofIndex_append (by omega)]
    · obtain ⟨first, last, order, within, start, stop, oneLine⟩ := below.extent token late inside
      refine ⟨line.length + 1 + first, line.length + 1 + last, by omega, by simp; omega, ?_, ?_, oneLine⟩
      · rw [start, Place.ofIndex_below single]
      · rw [stop, Place.ofIndex_below single]
  · apply List.pairwise_append.mpr
    refine ⟨above.ordered, below.ordered, ?_⟩
    intro token early next late
    -- The upper text is one line, so its line number alone puts it in front.
    obtain ⟨_, stop, _, last⟩ := above.places token early
    obtain ⟨start, _, first, _⟩ := below.places next late
    have lower := Place.line_le_ofIndex (number + 1) rest start
    rw [last, first]
    left
    rw [Place.ofIndex_line_of_single single]
    omega
  · intro index c character
    rcases Nat.lt_trichotomy index line.length with early | middle | late
    · rw [List.getElem?_append_left early] at character
      rw [Place.ofIndex_append (Nat.le_of_lt early)]
      rcases above.covered index c character with white | ⟨token, member, inside, covers⟩
      · exact .inl white
      · exact .inr ⟨token, List.mem_append_left _ member, inside, covers⟩
    · left
      rw [middle, List.getElem?_append_right (Nat.le_refl _), Nat.sub_self, List.getElem?_cons_zero,
        Option.some.injEq] at character
      simp [← character]
    · obtain ⟨offset, rfl⟩ : ∃ offset, index = line.length + 1 + offset := ⟨index - (line.length + 1), by omega⟩
      rw [Nat.add_assoc, List.getElem?_append_right (Nat.le_add_right _ _), Nat.add_sub_cancel_left,
        Nat.add_comm 1, List.getElem?_cons_succ] at character
      rw [Place.ofIndex_below single]
      rcases below.covered offset c character with white | ⟨token, member, inside, covers⟩
      · exact .inl white
      · exact .inr ⟨token, List.mem_append_right _ member, inside, covers⟩
  · rw [List.filter_append, List.map_append, above.lineEnds, below.lineEnds]
    simp only [List.map_cons, List.map_nil, List.map_map, List.singleton_append, Function.comp_def,
      Place.ofIndex_below single, Place.ofIndex_append (Nat.le_refl _)]

end Tiles

/-- Where a line ends: at each line feed, and behind the text if its last line has none. -/
def lineEnds (text : List Char) : List Nat :=
  text.idxsOf '\n' ++ if text.getLast? = some '\n' then [] else [text.length]

theorem idxsOf_of_single {line : List Char} (single : '\n' ∉ line) : line.idxsOf '\n' = [] := by
  rw [List.idxsOf, List.findIdxs_eq_nil_iff]
  intro c member
  have other : c ≠ '\n' := by
    rintro rfl
    exact single member
  simpa using other

theorem lineEnds_of_single {line : List Char} (single : '\n' ∉ line) : lineEnds line = [line.length] := by
  have open_ : line.getLast? ≠ some '\n' := fun last => single (List.mem_of_getLast? last)
  rw [lineEnds, idxsOf_of_single single, if_neg open_, List.nil_append]

theorem lineEnds_append {line : List Char} (single : '\n' ∉ line) (rest : List Char) :
    lineEnds (line ++ '\n' :: rest) =
      line.length :: (if rest = [] then [] else lineEnds rest).map (line.length + 1 + ·) := by
  have feeds : (line ++ '\n' :: rest).idxsOf '\n' =
      line.length :: (rest.idxsOf '\n').map (line.length + 1 + ·) := by
    have none := idxsOf_of_single single
    simp only [List.idxsOf] at none ⊢
    rw [List.findIdxs_append, none, List.findIdxs_cons, List.findIdxs_start]
    simp [Nat.add_comm]
  rw [lineEnds, feeds]
  by_cases finished : rest = []
  · simp [finished]
  · have last : (line ++ '\n' :: rest).getLast? = rest.getLast? := by
      cases rest with
      | nil => contradiction
      | cons c rest => simp [List.getLast?_cons]
    rw [last, if_neg finished, lineEnds]
    by_cases closed : rest.getLast? = some '\n'
    · simp [closed]
    · simp [closed]
      omega

namespace Scanner

theorem Scanned.tiles {listing : Listing} {number : Nat} {text : List Char} {tokens : List Token}
    {reports : List Diagnostic} (scanned : Scanned listing number (tokenLines text) tokens reports)
    (positive : 1 ≤ number) (bound : number + text.length < 2 ^ 32) :
    Tiles number text (lineEnds text) tokens := by
  induction text using line_induction generalizing number tokens reports with
  | step line tail single lineEnd ih =>
      rw [tokenLines_line line tail single lineEnd] at scanned
      rw [List.length_append] at bound
      cases scanned with
      | @cons _ _ _ marks tokens reports lexes later =>
          have above := Tiles.line lexes single positive (by omega)
          cases tail with
          | nil =>
              cases later
              rw [List.append_nil, lineEnds_of_single single]
              exact above
          | cons c rest =>
              obtain rfl := lineEnd c rfl
              rw [List.length_cons] at bound
              rw [List.tail_cons] at later ih
              have below : Tiles (number + 1) rest (if rest = [] then [] else lineEnds rest) tokens := by
                by_cases finished : rest = []
                · subst finished
                  cases later
                  exact .nil _
                · rw [if_neg finished] at later ⊢
                  exact ih (by simp) later (by omega) (by omega)
              rw [lineEnds_append single, ← List.singleton_append (l := tokens), ← List.append_assoc]
              exact above.append single below

theorem Scanned.exists_last {listing : Listing} {number : Nat} {lines : List (List Char)}
    {tokens : List Token} {reports : List Diagnostic}
    (scanned : Scanned listing number lines tokens reports) (started : lines ≠ []) :
    ∃ earlier ending, tokens = earlier ++ [ending] ∧ ending.isEndOfLine = true := by
  induction scanned with
  | nil => contradiction
  | @cons number line lines marks tokens reports lexes later ih =>
      by_cases more : lines = []
      · subst more
        cases later
        exact ⟨_, _, rfl, rfl⟩
      · obtain ⟨earlier, ending, rfl, closes⟩ := ih more
        exact ⟨marks.map (·.token number) ++ lineEnding number line.length :: earlier, ending, by simp, closes⟩

/-- Scanning loses no character and hands out none twice. -/
theorem tokens_tile_text (text : List Char) (bound : text.length < 2 ^ 32 - 1) {tokens : List Token}
    {last : Scanner} (ends : (ofText text).tokens = some (tokens, last)) :
    Tiles 1 text (lineEnds text) tokens ∧
      ∃ earlier ending, tokens = earlier ++ [ending] ∧ ending.isEndOfLine = true := by
  have scanned := (tokens_ofText_iff text tokens last.diagnostics).mp ⟨last, ends, rfl⟩
  refine ⟨scanned.tiles (Nat.le_refl 1) (by omega), scanned.exists_last ?_⟩
  obtain ⟨line, tail, rfl, single, lineEnd⟩ := exists_line text
  rw [tokenLines_line line tail single lineEnd]
  exact List.cons_ne_nil _ _

theorem tokens_tile_text_open_literal :
    ∃ tokens last, (ofText ['\t', ',', '"', 'A', '\n', '>']).tokens = some (tokens, last) ∧
      tokens.map (·.kind) = [.comma, .text (.ofList ['A']), .endOfLine, .append, .endOfLine] ∧
      Tiles 1 ['\t', ',', '"', 'A', '\n', '>'] [4, 6] tokens := by
  have above : Lexes true 0 ['\t', ',', '"', 'A'] [⟨1, ⟨[','], .comma, none⟩⟩,
      ⟨2, ⟨['"', 'A'], .text (.ofList ['A']), some .unterminated⟩⟩] :=
    .lexeme rfl rfl rfl (.lexeme rfl rfl rfl (.blank rfl))
  have below : Lexes true 0 ['>'] [⟨0, ⟨['>'], .append, none⟩⟩] := .lexeme rfl rfl rfl (.blank rfl)
  obtain ⟨last, ends, _⟩ :=
    (tokens_ofText_iff ['\t', ',', '"', 'A', '\n', '>'] _ _).mpr (.cons above (.cons below .nil))
  refine ⟨_, last, ends, rfl, ?_⟩
  exact (tokens_tile_text _ (by decide) ends).1

end Scanner

end Calculator
