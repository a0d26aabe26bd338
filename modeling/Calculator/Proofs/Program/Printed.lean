import Calculator.Proofs.Program.Covered
import Calculator.Proofs.Program.Written

/-! Tokens written out as they are shown, and scanned again. -/

namespace Calculator

namespace Token.Kind

/-- What stands between a token and those behind it on its line: one space. In front of the line end it
is left out unless it is wanted there. -/
def separator (closing : Bool) (behind : List Kind) : List Char :=
  if behind = [] ∧ closing = false then [] else [' ']

def printLine (closing : Bool) : List Kind → List Char
  | [] => []
  | kind :: kinds => kind.render.toList ++ separator closing kinds ++ printLine closing kinds

def print (closing : Bool) (kinds : List Kind) : List Char :=
  ['\n'].intercalate ((kinds.splitOn .endOfLine).map (printLine closing))

@[simp] theorem print_nil (closing : Bool) : print closing [] = [] := rfl

theorem print_line (closing : Bool) {line : List Kind} (inside : endOfLine ∉ line) (later : List Kind) :
    print closing (line ++ endOfLine :: later) = printLine closing line ++ '\n' :: print closing later := by
  have more : (later.splitOn endOfLine).map (printLine closing) ≠ [] := by
    simp
  rw [print, List.splitOn_append_cons_self_of_not_mem inside, List.map_cons,
    List.intercalate_cons_of_ne_nil more, List.append_assoc]
  rfl

end Token.Kind

theorem isBlank_of_dark {c : Char} (dark : isWhiteSpace c = false) : isBlank c = false := by
  simp only [isBlank, Bool.or_eq_false_iff, beq_eq_false_iff_ne]
  refine ⟨⟨?_, ?_⟩, ?_⟩
  · rintro rfl
    simp [isWhiteSpace] at dark
  · rintro rfl
    simp [isWhiteSpace] at dark
  · rintro rfl
    simp [isWhiteSpace] at dark

def AtSpace (tail : List Char) : Prop := ∀ c, tail.head? = some c → c = ' '

theorem takeWhile_append_space {word tail : List Char} (inside : ∀ c ∈ word, endsWord c = false)
    (space : AtSpace tail) : (word ++ tail).takeWhile (fun c => !endsWord c) = word := by
  have stops : tail.takeWhile (fun c => !endsWord c) = [] := by
    cases tail with
    | nil => rfl
    | cons c rest => simp [space c rfl, endsWord, isWhiteSpace]
  rw [List.takeWhile_append_of_pos (by simpa using inside), stops, List.append_nil]

theorem Token.Kind.atSpace_separator (closing : Bool) (kinds : List Kind) :
    AtSpace (separator closing kinds ++ printLine closing kinds) := by
  unfold separator
  split
  · next last =>
      rw [last.1]
      intro c head
      cases head
  · intro c head
    simpa using head.symm

namespace Lexeme

theorem read_word {c : Char} {rest : List Char} (first : Bool)
    (noComment : ¬(c = '/' ∧ rest.head? = some '/')) (noQuote : c ≠ '"') (noMark : c ≠ '>')
    (noComma : c ≠ ',') :
    read first c rest = ofWord first ((c :: rest).takeWhile fun c => !endsWord c) := by
  simp only [read, noComment, noQuote, noMark, noComma, if_false]

theorem ofWord_toDigits {value : Nat} (fits : value ≤ maxOperand) :
    ofWord false (Nat.toDigits 10 value) = ⟨Nat.toDigits 10 value, .integer (.ofNat value), none⟩ := by
  have digits : ∀ c ∈ Nat.toDigits 10 value, c.isDigit = true := fun c member =>
    Nat.isDigit_of_mem_toDigits (by decide) (by decide) member
  have numeral : Nat.toDigits 10 value ≠ [] ∧ (Nat.toDigits 10 value).all Char.isDigit = true :=
    ⟨Nat.toDigits_ne_nil, List.all_eq_true.mpr digits⟩
  simp only [ofWord, Bool.false_and, Bool.false_eq_true, if_false]
  rw [if_pos numeral, Nat.ofDigitChars_ten_toDigits, if_pos fits]

theorem render_integer {value : Nat} (fits : value ≤ maxOperand) :
    (Token.Kind.integer (.ofNat value)).render.toList = Nat.toDigits 10 value := by
  have bound : value < 2 ^ 15 := Nat.lt_succ_of_le fits
  rw [Token.Kind.render, Int16.toInt_ofNat_of_lt bound]
  exact Nat.toList_repr

theorem ofWord_cases (first : Bool) (word : List Char) :
    ((ofWord first word).kind.render.toList = word ∧
      ofWord first word = ⟨word, (ofWord first word).kind, none⟩) ∨
    first = false ∧ ∃ value ≤ maxOperand, (ofWord first word).kind = .integer (.ofNat value) := by
  unfold ofWord
  split
  · exact .inl ⟨String.toList_ofList, rfl⟩
  · next plain =>
      split
      · next digits =>
          right
          have numeral : isNumeral word = true := by
            have run : Numeral.Digits word := List.all_eq_true.mp digits.2
            have number := Numeral.Number.positive (.whole run digits.1) .absent
            rw [List.append_nil] at number
            exact Numeral.isNumeral_of_number number
          refine ⟨by simpa [numeral] using plain, ?_⟩
          dsimp only
          split
          · next fits => exact ⟨_, fits, rfl⟩
          · exact ⟨0, Nat.zero_le _, rfl⟩
      · left
        split
        · next indirect =>
            rw [indirect]
            exact ⟨rfl, rfl⟩
        · split
          · split
            · exact ⟨String.toList_singleton _, rfl⟩
            · exact ⟨String.toList_ofList, rfl⟩
          · exact ⟨String.toList_ofList, rfl⟩

theorem quotable_content (text : List Char) :
    Alpha.Quotable (text.takeWhile fun c => c != '"' && c != '\n') := by
  constructor
  · intro member
    simpa using List.mem_takeWhile_imp member
  · intro member
    simpa using List.mem_takeWhile_imp member

/-- Read at this place, the token as it is shown is one of the same kind without a flaw. -/
def RereadsAs (first : Bool) (kind : Token.Kind) (tail : List Char) : Prop :=
  ∃ c rest, kind.render.toList = c :: rest ∧ isWhiteSpace c = false ∧
    read first c (rest ++ tail) = ⟨c :: rest, kind, none⟩

theorem rereadsAs_integer {value : Nat} (fits : value ≤ maxOperand) {tail : List Char}
    (space : AtSpace tail) : RereadsAs false (.integer (.ofNat value)) tail := by
  obtain ⟨c, rest, shown⟩ := List.exists_cons_of_ne_nil (Nat.toDigits_ne_nil (n := value) (b := 10))
  have numeric : ∀ d ∈ c :: rest, Numeral.IsNumeric d := by
    intro d member
    rw [← shown] at member
    exact .inl (Nat.isDigit_of_mem_toDigits (by decide) (by decide) member)
  have digit : c.isDigit = true := by
    apply Nat.isDigit_of_mem_toDigits (b := 10) (n := value) (by decide) (by decide)
    simp [shown]
  have whole : ((c :: rest) ++ tail).takeWhile (fun c => !endsWord c) = c :: rest :=
    takeWhile_append_space (fun d member => (numeric d member).endsWord_eq) space
  have dark : isWhiteSpace c = false := by
    have inside := (numeric c List.mem_cons_self).endsWord_eq
    simp only [endsWord, Bool.or_eq_false_iff] at inside
    exact inside.1.1
  refine ⟨c, rest, (render_integer fits).trans shown, dark, ?_⟩
  rw [read_word false (fun comment => Numeral.ne_of_isDigit digit (by decide) comment.1)
    (Numeral.ne_of_isDigit digit (by decide)) (Numeral.ne_of_isDigit digit (by decide))
    (Numeral.ne_of_isDigit digit (by decide)), ← List.cons_append, whole, ← shown]
  exact ofWord_toDigits fits

theorem rereadsAs_word {first : Bool} {c : Char} {rest tail : List Char} (dark : isWhiteSpace c = false)
    (noComment : ¬(c = '/' ∧ rest.head? = some '/')) (noQuote : c ≠ '"') (noMark : c ≠ '>')
    (noComma : c ≠ ',') (space : AtSpace tail) : RereadsAs first (read first c rest).kind tail := by
  rw [read_word first noComment noQuote noMark noComma]
  generalize found : (c :: rest).takeWhile (fun c => !endsWord c) = word
  rcases ofWord_cases first word with ⟨shown, shape⟩ | ⟨rfl, value, fits, kind⟩
  · have inside : ∀ d ∈ word, endsWord d = false := by
      intro d member
      rw [← found] at member
      simpa using List.mem_takeWhile_imp member
    obtain ⟨more, rfl⟩ : ∃ more, word = c :: more := by
      refine ⟨rest.takeWhile fun c => !endsWord c, ?_⟩
      simpa [endsWord, dark, noQuote, noComma] using found.symm
    refine ⟨c, more, shown, dark, ?_⟩
    -- The word may be a single slash, and then the space keeps it from opening a comment.
    have follower : ¬(c = '/' ∧ (more ++ tail).head? = some '/') := by
      rintro ⟨slash, second⟩
      cases more with
      | nil => exact absurd (space _ second) (by decide)
      | cons d more =>
          obtain rfl : d = '/' := by simpa using second
          have next : '/' :: more <+: rest := by
            have starts := List.takeWhile_prefix (fun c => !endsWord c) (l := c :: rest)
            rw [found] at starts
            exact (List.cons_prefix_cons.mp starts).2
          exact noComment ⟨slash, by obtain ⟨behind, rfl⟩ := next; rfl⟩
    rw [read_word first follower noQuote noMark noComma, ← List.cons_append,
      takeWhile_append_space inside space]
    exact shape
  · rw [kind]
    exact rereadsAs_integer fits space

theorem rereadsAs_read {first : Bool} {c : Char} {rest tail : List Char} (dark : isWhiteSpace c = false)
    (noComment : (read first c rest).kind ≠ .comment) (space : AtSpace tail) :
    RereadsAs first (read first c rest).kind tail := by
  by_cases comment : c = '/' ∧ rest.head? = some '/'
  · exact absurd (by simp [read, comment]) noComment
  by_cases quote : c = '"'
  · subst quote
    have shape : read first '"' rest = ofQuoted rest := rfl
    have quotable := quotable_content rest
    rw [shape, ofQuoted_kind]
    generalize rest.takeWhile (fun c => c != '"' && c != '\n') = content at quotable ⊢
    refine ⟨'"', content ++ ['"'], by simp [Token.Kind.render], rfl, ?_⟩
    rw [List.append_assoc, List.singleton_append]
    exact ofQuoted_of_quotable quotable tail
  by_cases mark : c = '>'
  · subst mark
    have shape : read first '>' rest = ⟨['>'], .append, none⟩ := by simp [read]
    rw [shape]
    exact ⟨'>', [], rfl, rfl, by simp [read]⟩
  by_cases comma : c = ','
  · subst comma
    have shape : read first ',' rest = ⟨[','], .comma, none⟩ := by simp [read]
    rw [shape]
    exact ⟨',', [], rfl, rfl, by simp [read]⟩
  exact rereadsAs_word dark comment quote mark comma space

end Lexeme

namespace Lexes

theorem newline_not_mem {first : Bool} {offset : Nat} {line : List Char} {marks : List Mark}
    (lexes : Lexes first offset line marks) : '\n' ∉ line := by
  induction lexes with
  | @blank first offset line empty =>
      have whole := List.takeWhile_append_dropWhile (p := isBlank) (l := line)
      rw [empty, List.append_nil] at whole
      rw [← whole]
      exact newline_not_mem_blanks line
  | @lexeme first offset line rest c mark marks found dark here tail ih =>
      have inside : c ≠ '\n' := by
        rintro rfl
        simp [isWhiteSpace] at dark
      have covered := Lexeme.newline_not_mem_read_text first c rest inside
      have split := List.prefix_iff_eq_append.mp (Lexeme.read_text_prefix first c rest)
      rw [← List.takeWhile_append_dropWhile (p := isBlank) (l := line), found, ← split, List.mem_append,
        List.mem_append]
      rintro (early | inText | late)
      · exact newline_not_mem_blanks line early
      · exact covered inText
      · rw [here] at ih
        exact ih late

theorem endOfLine_not_mem {first : Bool} {offset : Nat} {line : List Char} {marks : List Mark}
    (lexes : Lexes first offset line marks) : .endOfLine ∉ marks.map (·.lexeme.kind) := by
  intro member
  obtain ⟨mark, among, kind⟩ := List.mem_map.mp member
  obtain ⟨start, c, rest, shape, _⟩ := lexes.read_at mark among
  rw [shape] at kind
  exact Lexeme.read_kind_ne_endOfLine start c rest kind

theorem behind_space {first : Bool} {offset : Nat} {line : List Char} {marks : List Mark}
    (lexes : Lexes first (offset + 1) line marks) : Lexes first offset (' ' :: line) marks := by
  cases lexes with
  | blank empty => exact .blank empty
  | lexeme found dark here tail =>
      refine .lexeme found dark ?_ tail
      rw [here]
      simp only [Mark.mk.injEq, and_true]
      show offset + 1 + (line.takeWhile isBlank).length = offset + ((line.takeWhile isBlank).length + 1)
      omega

theorem at_once {first : Bool} {start : Nat} {c : Char} {rest : List Char} {lexeme : Lexeme}
    {marks : List Mark} (dark : isWhiteSpace c = false) (reads : Lexeme.read first c rest = lexeme)
    (tail : Lexes false (start + lexeme.text.length) ((c :: rest).drop lexeme.text.length) marks) :
    Lexes first start (c :: rest) (⟨start, lexeme⟩ :: marks) := by
  have notBlank := isBlank_of_dark dark
  exact .lexeme (by simp [notBlank]) dark (by simp [notBlank, reads]) tail

theorem exists_behind_separator {closing : Bool} {kinds : List Token.Kind} {good : List Mark → Prop}
    (start : Nat)
    (lexes : ∀ start, ∃ printed, Lexes false start (Token.Kind.printLine closing kinds) printed ∧
      good printed) :
    ∃ printed, Lexes false start (Token.Kind.separator closing kinds ++ Token.Kind.printLine closing kinds)
      printed ∧ good printed := by
  unfold Token.Kind.separator
  split
  · exact lexes start
  · obtain ⟨printed, later, sound⟩ := lexes (start + 1)
    exact ⟨printed, later.behind_space, sound⟩

/-- The tokens of a line, printed, give a line with lexemes of the same kinds and without flaws. -/
theorem exists_printed {first : Bool} {offset : Nat} {line : List Char} {marks : List Mark}
    (lexes : Lexes first offset line marks) (closing : Bool) (start : Nat) :
    ∃ printed, Lexes first start (Token.Kind.printLine closing (marks.map (·.lexeme.kind))) printed ∧
      printed.map (·.lexeme.kind) = marks.map (·.lexeme.kind) ∧
      ∀ mark ∈ printed, mark.lexeme.flaw = none := by
  induction lexes generalizing start with
  | blank empty => exact ⟨[], .blank rfl, rfl, by simp⟩
  | @lexeme first offset line rest c mark marks found dark here tail ih =>
      have kind : mark.lexeme.kind = (Lexeme.read first c rest).kind := by rw [here]
      rw [List.map_cons, Token.Kind.printLine, kind]
      by_cases comment : (Lexeme.read first c rest).kind = .comment
      · -- A comment takes in the rest of its line, so it was the last token and is so again.
        have nothing : marks = [] := by
          have inside := (Lexes.lexeme found dark here tail).newline_not_mem
          have single : '\n' ∉ c :: rest := by
            rw [← found]
            exact fun member => inside ((List.dropWhile_suffix isBlank).mem member)
          rw [here, Lexeme.read_text_of_comment first c rest single comment, List.drop_length] at tail
          exact tail.unique (.blank rfl)
        subst nothing
        rw [comment]
        cases closing with
        | false =>
            refine ⟨[⟨start, ⟨['/', '/'], .comment, none⟩⟩], ?_, rfl, by simp⟩
            exact .lexeme rfl rfl rfl (.blank rfl)
        | true =>
            refine ⟨[⟨start, ⟨['/', '/', ' '], .comment, none⟩⟩], ?_, rfl, by simp⟩
            exact .lexeme rfl rfl rfl (.blank rfl)
      · obtain ⟨d, more, shown, darkAgain, again⟩ :=
          Lexeme.rereadsAs_read dark comment (Token.Kind.atSpace_separator closing (marks.map (·.lexeme.kind)))
        obtain ⟨printed, later, kinds, sound⟩ := exists_behind_separator (start + (d :: more).length) ih
        rw [shown]
        refine ⟨⟨start, ⟨d :: more, (Lexeme.read first c rest).kind, none⟩⟩ :: printed, ?_, ?_, ?_⟩
        · rw [List.append_assoc, List.cons_append]
          apply Lexes.at_once darkAgain again
          rw [← List.cons_append, List.drop_left]
          exact later
        · simp [kinds]
        · simpa using sound

end Lexes

namespace Scanner

theorem reports_of_sound (listing : Listing) (number : Nat) {marks : List Mark}
    (sound : ∀ mark ∈ marks, mark.lexeme.flaw = none) :
    marks.flatMap (·.reports listing number) = [] := by
  rw [List.flatMap_eq_nil_iff]
  intro mark member
  simp [Mark.reports, faultOf, sound mark member]

theorem Scanned.print_cons {number length : Nat} {line : List Char} {marks : List Mark}
    (lexes : Lexes true 0 line marks) (closing : Bool) (tokens : List Token) :
    Token.Kind.print closing
        ((marks.map (·.token number) ++ lineEnding number length :: tokens).map (·.kind)) =
      Token.Kind.printLine closing (marks.map (·.lexeme.kind)) ++
        '\n' :: Token.Kind.print closing (tokens.map (·.kind)) := by
  rw [kinds_line, Token.Kind.print_line closing lexes.endOfLine_not_mem]

theorem Scanned.print_eq_nil_iff {listing : Listing} {number : Nat} {lines : List (List Char)}
    {tokens : List Token} {reports : List Diagnostic}
    (scanned : Scanned listing number lines tokens reports) (closing : Bool) :
    Token.Kind.print closing (tokens.map (·.kind)) = [] ↔ tokens = [] := by
  cases scanned with
  | nil => simp
  | cons lexes later =>
      rw [print_cons lexes]
      simp

theorem Scanned.exists_printed {listing : Listing} {number : Nat} {lines : List (List Char)}
    {tokens : List Token} {reports : List Diagnostic}
    (scanned : Scanned listing number lines tokens reports) (closing : Bool) (other : Listing) :
    ∃ printed, printed.map (·.kind) = tokens.map (·.kind) ∧
      Scanned other number
        (if tokens = [] then [] else tokenLines (Token.Kind.print closing (tokens.map (·.kind)))) printed [] := by
  induction scanned with
  | nil => exact ⟨[], rfl, .nil⟩
  | @cons number line lines marks tokens reports lexes later ih =>
      obtain ⟨printedMarks, lexesAgain, kinds, sound⟩ := lexes.exists_printed closing 0
      obtain ⟨printed, kindsLater, scannedLater⟩ := ih
      have lineEnd : AtLineEnd ('\n' :: Token.Kind.print closing (tokens.map (·.kind))) := by
        intro c head
        simpa using head.symm
      have cut : tokenLines (Token.Kind.print closing
            ((marks.map (·.token number) ++ lineEnding number line.length :: tokens).map (·.kind))) =
          Token.Kind.printLine closing (marks.map (·.lexeme.kind)) ::
            if tokens = [] then [] else tokenLines (Token.Kind.print closing (tokens.map (·.kind))) := by
        rw [print_cons lexes, tokenLines_line _ _ lexesAgain.newline_not_mem lineEnd, List.tail_cons]
        simp only [later.print_eq_nil_iff]
      have both := Scanned.cons lexesAgain scannedLater
      rw [reports_of_sound other number sound, List.append_nil] at both
      rw [if_neg (List.append_ne_nil_of_right_ne_nil _ (List.cons_ne_nil _ _)), cut]
      exact ⟨_, by rw [kinds_line, kinds_line, kinds, kindsLater], both⟩

/-- Printing the tokens of a text and scanning what is printed gives tokens of the same kinds, and nothing
is reported, whether or not a space stands in front of the line ends as well. -/
theorem tokens_print (text : List Char) {tokens : List Token} {last : Scanner}
    (ends : (ofText text).tokens = some (tokens, last)) (closing : Bool) :
    ∃ again final, (ofText (Token.Kind.print closing (tokens.map (·.kind)))).tokens = some (again, final) ∧
      again.map (·.kind) = tokens.map (·.kind) ∧ final.diagnostics = [] := by
  have scanned := (tokens_ofText_iff text tokens last.diagnostics).mp ⟨last, ends, rfl⟩
  have started : tokens ≠ [] := by
    obtain ⟨line, tail, rfl, single, lineEnd⟩ := exists_line text
    rw [tokenLines_line line tail single lineEnd] at scanned
    generalize last.diagnostics = reports at scanned
    cases scanned with
    | cons lexes later => simp
  obtain ⟨again, kinds, printed⟩ :=
    scanned.exists_printed closing (.ofText (Token.Kind.print closing (tokens.map (·.kind))))
  rw [if_neg started] at printed
  obtain ⟨final, found, silent⟩ := (tokens_ofText_iff _ again []).mpr printed
  exact ⟨again, final, found, kinds, silent⟩

theorem tokens_print_flawed :
    ∃ again final, (ofText ['X', ' ', '0', '\n', '"', 'é', '"', '\n']).tokens = some (again, final) ∧
      again.map (·.kind) = [.letter 'X', .integer 0, .endOfLine, .text (.ofList ['é']), .endOfLine] ∧
      final.diagnostics = [] := by
  have above : Lexes true 0 ['X', '\t', '4', '0', '0', '0', '0'] [⟨0, ⟨['X'], .letter 'X', none⟩⟩,
      ⟨2, ⟨['4', '0', '0', '0', '0'], .integer 0, some .outOfRange⟩⟩] :=
    .lexeme rfl rfl rfl (.lexeme rfl rfl rfl (.blank rfl))
  have below : Lexes true 0 ['"', 'é'] [⟨0, ⟨['"', 'é'], .text (.ofList ['é']), some .unterminated⟩⟩] :=
    .lexeme rfl rfl rfl (.blank rfl)
  obtain ⟨last, ends, _⟩ :=
    (tokens_ofText_iff ['X', '\t', '4', '0', '0', '0', '0', '\n', '"', 'é'] _ _).mpr
      (.cons above (.cons below .nil))
  exact tokens_print _ ends false

end Scanner

end Calculator
