import Calculator.Proofs.Program.Printed
import Calculator.Proofs.Program.Progress
import Calculator.Proofs.Program.Tiling

/-! What the words of a program stand for. A word reaches up to the next white space, comma or quote. Its
characters alone decide what it is, and whether it comes first in its line. -/

namespace Calculator

def Delimits (c : Char) : Prop := WhiteSpace c ∨ c = ',' ∨ c = '"'

theorem endsWord_iff (c : Char) : endsWord c = true ↔ Delimits c := by
  simp [endsWord, Delimits, isWhiteSpace_iff, or_assoc]

structure WordAt (text : List Char) (start : Nat) (word : List Char) : Prop where
  started : word ≠ []
  here : word <+: text.drop start
  inside : ∀ c ∈ word, ¬Delimits c
  bounded : ∀ c, text[start + word.length]? = some c → Delimits c

theorem wordAt_takeWhile {text rest : List Char} {start : Nat} {c : Char}
    (ahead : text.drop start = c :: rest) (begins : ¬Delimits c) :
    WordAt text start ((c :: rest).takeWhile fun c => !endsWord c) := by
  refine ⟨?_, ?_, ?_, ?_⟩
  · have opens : endsWord c = false := by simpa [← endsWord_iff] using begins
    simp [opens]
  · rw [ahead]
    exact List.takeWhile_prefix _
  · intro d member ends
    simpa [(endsWord_iff d).mpr ends] using List.mem_takeWhile_imp member
  · intro d next
    rw [← List.getElem?_drop, ahead] at next
    have stops := List.head?_dropWhile_not (fun c => !endsWord c) (c :: rest)
    have head : ((c :: rest).dropWhile fun c => !endsWord c).head? = some d := by
      rw [← drop_length_takeWhile, List.head?_drop, next]
    rw [head] at stops
    exact (endsWord_iff d).mp (by simpa using stops)

namespace Numeral

theorem Mantissa.exists_digit {mantissa : List Char} (digits : Mantissa mantissa) :
    ∃ c ∈ mantissa, c.isDigit = true := by
  have first {run : List Char} (all : Digits run) (started : run ≠ []) : ∃ c ∈ run, c.isDigit = true :=
    ⟨_, List.head_mem started, all _ (List.head_mem started)⟩
  cases digits with
  | whole run started => exact first run started
  | pointed run started behind =>
      obtain ⟨c, member, digit⟩ := first run started
      exact ⟨c, List.mem_append_left _ member, digit⟩
  | fraction behind started =>
      obtain ⟨c, member, digit⟩ := first behind started
      exact ⟨c, List.mem_cons_of_mem _ member, digit⟩

theorem Number.exists_digit {word : List Char} (number : Number word) : ∃ c ∈ word, c.isDigit = true := by
  cases number with
  | positive digits power =>
      obtain ⟨c, member, digit⟩ := digits.exists_digit
      exact ⟨c, List.mem_append_left _ member, digit⟩
  | negative digits power =>
      obtain ⟨c, member, digit⟩ := digits.exists_digit
      exact ⟨c, List.mem_cons_of_mem _ (List.mem_append_left _ member), digit⟩

theorem isAlpha_of_isDigit {c : Char} (digit : c.isDigit = true) : c.isAlpha = false := by
  have bounds := isDigit_bounds digit
  simp only [Char.isAlpha, Char.isUpper, Char.isLower, Bool.or_eq_false_iff, Bool.and_eq_false_iff,
    decide_eq_false_iff_not, ge_iff_le, UInt32.le_iff_toNat_le]
  have upper : ¬65 ≤ c.toNat := by omega
  have lower : ¬97 ≤ c.toNat := by omega
  exact ⟨fun bounds => upper bounds.1, .inl lower⟩

end Numeral

structure Classified (first : Prop) (word : List Char) (kind : Token.Kind) : Prop where
  number_iff : kind = .number (.ofList word) ↔ first ∧ Numeral.Number word
  integer_iff : (∃ value, kind = .integer value) ↔
    ¬(first ∧ Numeral.Number word) ∧ ∀ c ∈ word, c.isDigit = true
  value_eq : ∀ value, kind = .integer value →
    value.toInt = if Nat.ofDigitChars 10 word 0 ≤ 32767 then Nat.ofDigitChars 10 word 0 else 0
  letter_iff : ∀ c, kind = .letter c ↔ word = [c] ∧ c.isAlpha = true
  indirect_iff : kind = .indirect ↔ word = ['I', 'N', 'D']
  identifier_iff : kind = .identifier (.ofList word) ↔ ¬(first ∧ Numeral.Number word) ∧
    ¬(∀ c ∈ word, c.isDigit = true) ∧ (∀ c, word = [c] → c.isAlpha = false) ∧ word ≠ ['I', 'N', 'D']

theorem letterless_of_digit {word : List Char} (found : ∃ c ∈ word, c.isDigit = true) :
    (∀ c, word = [c] → c.isAlpha = false) ∧ word ≠ ['I', 'N', 'D'] := by
  obtain ⟨c, member, digit⟩ := found
  constructor
  · rintro d rfl
    rw [← List.mem_singleton.mp member]
    exact Numeral.isAlpha_of_isDigit digit
  · rintro rfl
    have none : ∀ d ∈ ['I', 'N', 'D'], d.isDigit = false := by simp [Char.isDigit]
    simp [none c member] at digit

namespace Classified

variable {first : Prop} {word : List Char}

theorem letter_iff_of_letterless {kind : Token.Kind} (other : ∀ c, kind ≠ .letter c)
    (noLetter : ∀ c, word = [c] → c.isAlpha = false) (c : Char) :
    kind = .letter c ↔ word = [c] ∧ c.isAlpha = true := by
  refine iff_of_false (other c) fun letter => ?_
  simp [noLetter c letter.1] at letter

theorem number (number : first ∧ Numeral.Number word) : Classified first word (.number (.ofList word)) := by
  obtain ⟨noLetter, noIndirect⟩ := letterless_of_digit number.2.exists_digit
  exact ⟨by simp [number], by simp [number], by simp, letter_iff_of_letterless (by simp) noLetter,
    by simp [noIndirect], by simp [number]⟩

theorem integer {value : Int16} (noNumber : ¬(first ∧ Numeral.Number word)) (started : word ≠ [])
    (digits : ∀ c ∈ word, c.isDigit = true) (exactly : value.toInt =
      if Nat.ofDigitChars 10 word 0 ≤ 32767 then Nat.ofDigitChars 10 word 0 else 0) :
    Classified first word (.integer value) := by
  have head := List.head_mem started
  obtain ⟨noLetter, noIndirect⟩ := letterless_of_digit ⟨_, head, digits _ head⟩
  refine ⟨by simpa using noNumber, iff_of_true ⟨_, rfl⟩ ⟨noNumber, digits⟩, ?_,
    letter_iff_of_letterless (by simp) noLetter, by simp [noIndirect], ?_⟩
  · rintro _ ⟨⟩
    exact exactly
  · exact iff_of_false (by simp) fun plain => plain.2.1 digits

theorem letter {c : Char} (letter : c.isAlpha = true) : Classified first [c] (.letter c) := by
  have digitless : ¬∃ d ∈ [c], d.isDigit = true := fun found => by
    simp [(letterless_of_digit found).1 c rfl] at letter
  have noNumber : ¬(first ∧ Numeral.Number [c]) := fun number => digitless number.2.exists_digit
  have noDigits : ¬∀ d ∈ [c], d.isDigit = true := fun digits => digitless ⟨c, by simp, digits c (by simp)⟩
  refine ⟨by simpa using noNumber, ?_, by simp, ?_, by simp, by simp [letter]⟩
  · exact iff_of_false (by simp) fun integer => noDigits integer.2
  · intro d
    constructor
    · rintro ⟨⟩
      exact ⟨rfl, letter⟩
    · rintro ⟨⟨⟩, _⟩
      rfl

theorem indirect : Classified first ['I', 'N', 'D'] .indirect := by
  have noNumber : ¬(first ∧ Numeral.Number ['I', 'N', 'D']) := fun number =>
    (letterless_of_digit number.2.exists_digit).2 rfl
  exact ⟨by simpa using noNumber, by simp, by simp, by simp, by simp, by simp⟩

theorem identifier (noNumber : ¬(first ∧ Numeral.Number word)) (noDigits : ¬∀ c ∈ word, c.isDigit = true)
    (noLetter : ∀ c, word = [c] → c.isAlpha = false) (noIndirect : word ≠ ['I', 'N', 'D']) :
    Classified first word (.identifier (.ofList word)) := by
  refine ⟨by simpa using noNumber, ?_, by simp, letter_iff_of_letterless (by simp) noLetter,
    by simp [noIndirect], ?_⟩
  · exact iff_of_false (by simp) fun integer => noDigits integer.2
  · exact iff_of_true rfl ⟨noNumber, noDigits, noLetter, noIndirect⟩

end Classified

namespace Lexeme

theorem classified_ofWord (first : Bool) {word : List Char} (started : word ≠ []) :
    Classified (first = true) word (ofWord first word).kind := by
  have numeral_iff : (first && isNumeral word) = true ↔ first = true ∧ Numeral.Number word := by
    rw [Bool.and_eq_true]
    exact and_congr_right fun _ => ⟨Numeral.number_of_isNumeral, Numeral.isNumeral_of_number⟩
  have digits_iff : (word ≠ [] ∧ word.all Char.isDigit) ↔ ∀ c ∈ word, c.isDigit = true := by
    simp [started]
  unfold ofWord
  split
  · next numeral => exact .number (numeral_iff.mp numeral)
  · next noNumeral =>
      rw [numeral_iff] at noNumeral
      split
      · next digits =>
          rw [digits_iff] at digits
          dsimp only
          split
          · next fits =>
              apply Classified.integer noNumeral started digits
              rw [if_pos (show _ ≤ 32767 from fits), Int16.toInt_ofNat_of_lt (Nat.lt_succ_of_le fits)]
          · next large =>
              apply Classified.integer noNumeral started digits
              rw [if_neg (show ¬_ ≤ 32767 from large)]
              rfl
      · next noDigits =>
          rw [digits_iff] at noDigits
          split
          · next indirect =>
              rw [indirect]
              exact .indirect
          · next noIndirect =>
              split
              · next c =>
                  split
                  · next letter => exact .letter letter
                  · next noLetter => exact .identifier noNumeral noDigits (by simpa using noLetter) noIndirect
              · next long =>
                  exact .identifier noNumeral noDigits (fun c single => absurd single (long c)) noIndirect

end Lexeme

namespace Place

theorem afterText_start (text : List Char) :
    start.afterText text = ⟨1 + text.count '\n', 1 + (text.reverse.takeWhile (· != '\n')).length⟩ := by
  induction text using List.reverseRecOn with
  | nil => rfl
  | append_singleton text c ih =>
      have step : start.afterText (text ++ [c]) = (start.afterText text).after c := List.foldl_concat ..
      rw [step, ih]
      by_cases newline : c = '\n'
      · simp [after, newline, Nat.add_assoc]
      · simp [after, newline, Nat.add_comm]

theorem ofIndex_afterText {text passed behind : List Char} {index : Nat}
    (split : text.drop index = passed ++ behind) :
    (ofIndex 1 text index).afterText passed = ofIndex 1 text (index + passed.length) := by
  have taken : text.take (index + passed.length) = text.take index ++ passed := by
    rw [List.take_add, split, List.take_left]
  have upTo (count : Nat) : ofIndex 1 text count = start.afterText (text.take count) :=
    (afterText_start _).symm
  rw [upTo, upTo, taken]
  exact (List.foldl_append ..).symm

end Place

namespace Scanner

theorem next_lineStart (scanner : Scanner) : scanner.next.2.lineStart = scanner.next.1.isEndOfLine := by
  rcases ahead_cases scanner with closes | ⟨rest, newline⟩ | ⟨c, rest, found, inside⟩
  · rw [next_of_end scanner closes]
    rfl
  · rw [next_of_newline scanner rest newline]
    rfl
  · rw [isEndOfLine_next_of_lexeme scanner c rest found inside, next_of_lexeme scanner c rest found inside]
    rfl

/-- A step takes the scanner over some text, and its place along. -/
theorem next_passes (scanner : Scanner) : ∃ passed,
    scanner.rest = passed ++ scanner.next.2.rest ∧ scanner.next.2.place = scanner.place.afterText passed := by
  have skipped := (List.takeWhile_append_dropWhile (p := isBlank) (l := scanner.rest)).symm
  have along (passed : List Char) : scanner.place.afterText (scanner.rest.takeWhile isBlank ++ passed) =
      scanner.tokenPlace.afterText passed := List.foldl_append ..
  rcases ahead_cases scanner with closes | ⟨rest, newline⟩ | ⟨c, rest, found, inside⟩
  · rw [next_of_end scanner closes]
    exact ⟨_, closes ▸ skipped, rfl⟩
  · rw [next_of_newline scanner rest newline]
    refine ⟨scanner.rest.takeWhile isBlank ++ ['\n'], by simpa [newline] using skipped, ?_⟩
    rw [along]
    rfl
  · rw [next_of_lexeme scanner c rest found inside]
    obtain ⟨behind, split⟩ := Lexeme.read_text_prefix scanner.lineStart c rest
    refine ⟨scanner.rest.takeWhile isBlank ++ (Lexeme.read scanner.lineStart c rest).text, ?_, (along _).symm⟩
    rw [found, ← split] at skipped
    simp only [take, ← split, List.drop_left, List.append_assoc]
    exact skipped

structure StandsAt (scanner : Scanner) (text : List Char) (index : Nat) : Prop where
  rest : scanner.rest = text.drop index
  place : scanner.place = .ofIndex 1 text index

theorem exists_standsAt_after (text : List Char) (count : Nat) :
    ∃ index, ((ofText text).after count).StandsAt text index := by
  induction count with
  | zero => exact ⟨0, rfl, rfl⟩
  | succ count ih =>
      obtain ⟨index, rest, place⟩ := ih
      obtain ⟨passed, split, moved⟩ := next_passes ((ofText text).after count)
      rw [rest] at split
      refine ⟨index + passed.length, ?_, ?_⟩
      · rw [after_succ_eq, ← List.drop_drop, split, List.drop_left]
      · rw [after_succ_eq, moved, place, Place.ofIndex_afterText split]

def FirstInLine (tokens : List Token) (index : Nat) : Prop :=
  index = 0 ∨ ∃ earlier, tokens[index - 1]? = some earlier ∧ earlier.isEndOfLine = true

theorem lineStart_after_iff {text : List Char} {tokens : List Token} {last : Scanner}
    (ends : (ofText text).tokens = some (tokens, last)) {index : Nat} (within : index < tokens.length) :
    ((ofText text).after index).lineStart = true ↔ FirstInLine tokens index := by
  cases index with
  | zero => exact iff_of_true rfl (.inl rfl)
  | succ index =>
      have found := List.getElem?_eq_getElem (Nat.lt_of_succ_lt within)
      rw [after_succ_eq, next_lineStart, (next_after_of_tokens ends found).1]
      simp [FirstInLine, found]

structure StartsAt (scanner : Scanner) (text : List Char) (start : Nat) (token : Token) : Prop where
  next : scanner.next.1 = token
  ahead : scanner.rest.dropWhile isBlank = text.drop start
  line : token.span.startLine = .ofNat (Place.ofIndex 1 text start).line
  column : token.span.startColumn = .ofNat (Place.ofIndex 1 text start).column

structure Covers (scanner : Scanner) (text : List Char) (start width : Nat) (token : Token) : Prop where
  behind : scanner.next.2.rest = text.drop (start + width)
  line : token.span.endLine = .ofNat (Place.ofIndex 1 text start).line
  column : token.span.endColumn = .ofNat ((Place.ofIndex 1 text start).column + width - 1)

theorem StandsAt.exists_ahead {scanner : Scanner} {text : List Char} {index : Nat}
    (stands : scanner.StandsAt text index) : ∃ start,
      scanner.rest.dropWhile isBlank = text.drop start ∧ scanner.tokenPlace = .ofIndex 1 text start := by
  refine ⟨index + (scanner.rest.takeWhile isBlank).length, ?_, ?_⟩
  · rw [stands.rest, ← List.drop_drop, drop_length_takeWhile]
  · rw [tokenPlace, stands.place, stands.rest]
    exact Place.ofIndex_afterText List.takeWhile_append_dropWhile.symm

theorem startsAt_of_lexeme {scanner : Scanner} {text rest : List Char} {start : Nat} {c : Char}
    (found : scanner.rest.dropWhile isBlank = c :: rest) (inside : c ≠ '\n')
    (ahead : scanner.rest.dropWhile isBlank = text.drop start)
    (place : scanner.tokenPlace = .ofIndex 1 text start) :
    StartsAt scanner text start scanner.next.1 := by
  have opened : scanner.next.1.span.startLine = .ofNat scanner.tokenPlace.line ∧
      scanner.next.1.span.startColumn = .ofNat scanner.tokenPlace.column := by
    rw [next_of_lexeme scanner c rest found inside]
    exact ⟨rfl, rfl⟩
  rw [place] at opened
  exact ⟨rfl, ahead, opened.1, opened.2⟩

theorem next_of_word {scanner : Scanner} {c : Char} {rest : List Char}
    (found : scanner.rest.dropWhile isBlank = c :: rest) (inside : c ≠ '\n')
    (noComment : ¬(c = '/' ∧ rest.head? = some '/')) (noQuote : c ≠ '"') (noMark : c ≠ '>')
    (noComma : c ≠ ',') {word : List Char} (taken : (c :: rest).takeWhile (fun c => !endsWord c) = word) :
    scanner.next.1.kind = (Lexeme.ofWord scanner.lineStart word).kind ∧
      scanner.next.1.span = scanner.tokenPlace.spanTo (scanner.tokenPlace.afterText word) ∧
      scanner.next.2.rest = (c :: rest).drop word.length := by
  rw [next_of_lexeme scanner c rest found inside, Lexeme.read_word _ noComment noQuote noMark noComma, taken]
  simp [take]

theorem covers_of_word {scanner : Scanner} {text word : List Char} {start : Nat}
    (wordAt : WordAt text start word) (place : scanner.tokenPlace = .ofIndex 1 text start)
    (span : scanner.next.1.span = scanner.tokenPlace.spanTo (scanner.tokenPlace.afterText word))
    (behind : scanner.next.2.rest = (text.drop start).drop word.length) :
    Covers scanner text start word.length scanner.next.1 := by
  have single : '\n' ∉ word := fun member => wordAt.inside _ member (.inl (by decide))
  have positive := List.length_pos_iff.mpr wordAt.started
  have column : 1 ≤ (Place.ofIndex 1 text start).column := Nat.le_add_right 1 _
  have wide : 1 ≤ (Place.ofIndex 1 text start).column + word.length - 1 := by omega
  rw [Place.afterText_of_not_mem _ _ single, place] at span
  refine ⟨by rw [behind, List.drop_drop], by rw [span]; rfl, ?_⟩
  simp only [span, Place.spanTo, Nat.max_eq_left wide]

/-- Every token that opens with none of the marks is a whole word, and stands for what the word says. -/
theorem tokens_classify_words (text : List Char) {tokens : List Token} {last : Scanner}
    (ends : (ofText text).tokens = some (tokens, last)) {index : Nat} {token : Token}
    (found : tokens[index]? = some token) (inside : token.isEndOfLine = false) :
    ∃ start c, text[start]? = some c ∧ StartsAt ((ofText text).after index) text start token ∧
      (c ≠ '"' → c ≠ ',' → c ≠ '>' → ¬(c = '/' ∧ text[start + 1]? = some '/') →
        ∃ word, WordAt text start word ∧
          Covers ((ofText text).after index) text start word.length token ∧
          Classified (FirstInLine tokens index) word token.kind) := by
  obtain ⟨rfl, moving⟩ := next_after_of_tokens ends found
  have first := lineStart_after_iff ends (List.getElem?_eq_some_iff.mp found).1
  obtain ⟨position, stands⟩ := exists_standsAt_after text index
  obtain ⟨start, ahead, place⟩ := stands.exists_ahead
  obtain ⟨c, rest, shape, notNewline⟩ := exists_lexeme _ inside
  have here : text.drop start = c :: rest := by rw [← ahead, shape]
  have character : text[start]? = some c := by rw [← List.head?_drop, here, List.head?_cons]
  have second : text[start + 1]? = rest.head? := by
    rw [← List.getElem?_drop, here, List.getElem?_cons_succ, List.head?_eq_getElem?]
  refine ⟨start, c, character, startsAt_of_lexeme shape notNewline ahead place, ?_⟩
  intro noQuote noComma noMark noComment
  rw [second] at noComment
  have begins : ¬Delimits c := by
    rintro (white | comma | quote)
    · exact moving ⟨c, rest, shape, notNewline, (isWhiteSpace_iff c).mpr white⟩
    · exact noComma comma
    · exact noQuote quote
  have wordAt := wordAt_takeWhile here begins
  obtain ⟨kind, span, behind⟩ := next_of_word shape notNewline noComment noQuote noMark noComma rfl
  refine ⟨_, wordAt, covers_of_word wordAt place span (by rw [here, behind]), ?_⟩
  rw [← first, kind]
  exact Lexeme.classified_ofWord _ wordAt.started

theorem tokens_classify_words_signed_fraction :
    ∃ tokens last, (ofText ['1', 'E', '\n', '-', '.', '5', ',', '7']).tokens = some (tokens, last) ∧
      tokens[2]? = some ⟨.number (.ofList ['-', '.', '5']), ⟨2, 1, 2, 3⟩⟩ ∧
      ∃ start word, WordAt ['1', 'E', '\n', '-', '.', '5', ',', '7'] start word ∧
        Covers ((ofText ['1', 'E', '\n', '-', '.', '5', ',', '7']).after 2)
          ['1', 'E', '\n', '-', '.', '5', ',', '7'] start word.length
          ⟨.number (.ofList ['-', '.', '5']), ⟨2, 1, 2, 3⟩⟩ ∧
        Classified (FirstInLine tokens 2) word (.number (.ofList ['-', '.', '5'])) := by
  have above : Lexes true 0 ['1', 'E'] [⟨0, ⟨['1', 'E'], .identifier (.ofList ['1', 'E']), none⟩⟩] :=
    .lexeme rfl rfl rfl (.blank rfl)
  have below : Lexes true 0 ['-', '.', '5', ',', '7'] [⟨0, ⟨['-', '.', '5'],
      .number (.ofList ['-', '.', '5']), none⟩⟩, ⟨3, ⟨[','], .comma, none⟩⟩,
      ⟨4, ⟨['7'], .integer 7, none⟩⟩] :=
    .lexeme rfl rfl rfl (.lexeme rfl rfl rfl (.lexeme rfl rfl rfl (.blank rfl)))
  obtain ⟨last, ends, _⟩ := (tokens_ofText_iff ['1', 'E', '\n', '-', '.', '5', ',', '7'] _ _).mpr
    (.cons above (.cons below .nil))
  obtain ⟨start, c, character, starts, word⟩ := @tokens_classify_words _ _ _ ends 2 _ rfl rfl
  have shape : List.drop start ['1', 'E', '\n', '-', '.', '5', ',', '7'] = ['-', '.', '5', ',', '7'] :=
    starts.ahead.symm
  have opens : c = '-' := by
    rw [← List.head?_drop, shape] at character
    exact (Option.some.inj character).symm
  subst opens
  exact ⟨_, last, ends, rfl, start, word (by decide) (by decide) (by decide) (by simp)⟩

end Scanner

end Calculator
