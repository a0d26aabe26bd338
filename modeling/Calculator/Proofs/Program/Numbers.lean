import Calculator.Proofs.Program.Located
import Calculator.Proofs.Program.Progress

/-! The byte code of numbers, from which they can be read again, and why every number of a program has
one. -/

namespace Calculator

namespace Numeral

structure FirstStrange (word : List Char) (index : Nat) (c : Char) : Prop where
  earlier : ∀ d ∈ word.take index, IsNumeric d
  here : word[index]? = some c
  strange : ¬IsNumeric c

theorem FirstStrange.cons {word : List Char} {index : Nat} {c d : Char} (numeric : IsNumeric d)
    (first : FirstStrange word index c) : FirstStrange (d :: word) (index + 1) c := by
  refine ⟨?_, by simpa using first.here, first.strange⟩
  intro other member
  rw [List.take_succ_cons] at member
  rcases List.mem_cons.mp member with rfl | later
  · exact numeric
  · exact first.earlier other later

theorem numberByte?_eq_none {c : Char} (strange : ¬IsNumeric c) : ByteCode.numberByte? c = none := by
  simp only [IsNumeric, not_or] at strange
  obtain ⟨noDigit, noPoint, noMark, noSmallMark, noSign⟩ := strange
  simp [ByteCode.numberByte?, noDigit, noPoint, noMark, noSmallMark, noSign]

/-- A word is written with the characters of numbers, or its byte code fails at the first other one. -/
theorem numeric_or_strange (word : List Char) :
    (∀ c ∈ word, IsNumeric c) ∨ ∃ index c, FirstStrange word index c ∧
      ∀ start, ByteCode.numberBytesFrom start word = .error (c, start + index) := by
  induction word with
  | nil => exact .inl (by simp)
  | cons d word ih =>
      by_cases numeric : IsNumeric d
      · rcases ih with all | ⟨index, c, first, failed⟩
        · exact .inl (by simpa [numeric] using all)
        · refine .inr ⟨index + 1, c, first.cons numeric, ?_⟩
          intro start
          simp only [ByteCode.numberBytesFrom, numeric.numberByte?_eq, failed, Nat.add_assoc,
            Nat.add_comm 1]
      · refine .inr ⟨0, d, ⟨by simp, rfl, numeric⟩, ?_⟩
        intro start
        simp only [ByteCode.numberBytesFrom, numberByte?_eq_none numeric, Nat.add_zero]

/-- How code generation for a number ends: a byte for each character, or a fault at the first character
that no number is written with. -/
structure Coded (token : Token) (lexeme : String) : Prop where
  succeeds_iff : (∃ bytes, ByteCode.number token = .ok bytes) ↔ ∀ c ∈ lexeme.toList, IsNumeric c
  length_eq : ∀ bytes, ByteCode.number token = .ok bytes → bytes.length = lexeme.length
  fails : ¬(∀ c ∈ lexeme.toList, IsNumeric c) → ∃ index c fault,
    FirstStrange lexeme.toList index c ∧ ByteCode.number token = .error fault ∧
    fault.code = 103 ∧ fault.span = token.span.columnAt index

theorem coded_of_kind {token : Token} {lexeme : String} (kind : token.kind = .number lexeme) :
    Coded token lexeme := by
  rcases numeric_or_strange lexeme.toList with numeric | ⟨index, c, first, failed⟩
  · have coded := number_of_isNumeric kind numeric
    refine ⟨⟨fun _ => numeric, fun _ => ⟨_, coded⟩⟩, ?_, fun strange => absurd numeric strange⟩
    intro bytes found
    rw [coded] at found
    cases found
    rw [List.length_map, String.length_toList]
  · have strange : ¬∀ c ∈ lexeme.toList, IsNumeric c := fun numeric =>
      first.strange (numeric c (List.mem_of_getElem? first.here))
    have result : ByteCode.number token = .error (.strangeDigit c index lexeme token.span) := by
      simp only [ByteCode.number, kind, failed, Nat.zero_add]
    refine ⟨by simp [result, strange], by simp [result], fun _ => ?_⟩
    exact ⟨index, c, _, first, result, rfl, rfl⟩

def upperMark (c : Char) : Char := if c = 'e' then 'E' else c

def charOf (byte : UInt8) : Char :=
  if byte = 0x1a then '.'
  else if byte = 0x1b then 'E'
  else if byte = 0x1c then '-'
  else Char.ofNat ('0'.toNat + (byte.toNat - 0x10))

theorem charOf_byteOf_digit : ∀ value < 10,
    charOf (byteOf (Char.ofNat (48 + value))) = upperMark (Char.ofNat (48 + value)) := by
  decide

theorem charOf_byteOf {c : Char} (numeric : IsNumeric c) : charOf (byteOf c) = upperMark c := by
  rcases numeric with digit | rfl | rfl | rfl | rfl
  · have bounds := isDigit_bounds digit
    have same := charOf_byteOf_digit (c.toNat - 48) (by omega)
    rwa [Nat.add_sub_cancel' bounds.1, Char.ofNat_toNat] at same
  · decide
  · decide
  · decide
  · decide

theorem byteOf_upperMark (c : Char) : byteOf (upperMark c) = byteOf c := by
  by_cases mark : c = 'e'
  · rw [mark]
    decide
  · rw [upperMark, if_neg mark]

/-- The bytes of a number tell its characters, but for the case of the mark of a power. -/
theorem map_byteOf_eq_iff {first second : List Char} (firstNumeric : ∀ c ∈ first, IsNumeric c)
    (secondNumeric : ∀ c ∈ second, IsNumeric c) :
    first.map byteOf = second.map byteOf ↔ first.map upperMark = second.map upperMark := by
  have back {word : List Char} (numeric : ∀ c ∈ word, IsNumeric c) :
      (word.map byteOf).map charOf = word.map upperMark := by
    rw [List.map_map]
    exact List.map_congr_left fun c member => charOf_byteOf (numeric c member)
  have forth (word : List Char) : (word.map upperMark).map byteOf = word.map byteOf := by
    rw [List.map_map]
    exact List.map_congr_left fun c _ => byteOf_upperMark c
  constructor
  · intro same
    rw [← back firstNumeric, same, back secondNumeric]
  · intro same
    rw [← forth first, same, forth second]

end Numeral

namespace Scanner

theorem number_coded_next (scanner : Scanner) {lexeme : String}
    (kind : scanner.next.1.kind = .number lexeme) :
    ∃ bytes, ByteCode.number scanner.next.1 = .ok bytes := by
  have inside : scanner.next.1.isEndOfLine = false := by simp [Token.isEndOfLine, kind]
  obtain ⟨c, rest, found, notNewline⟩ := exists_lexeme scanner inside
  have source := Lexeme.readFrom_read scanner.lineStart c rest
  have same : scanner.next.1.kind = (Lexeme.read scanner.lineStart c rest).kind := by
    rw [next_of_lexeme scanner c rest found notNewline]
    rfl
  rw [← same, kind] at source
  exact ⟨_, Numeral.number_of_isNumeric kind (Numeral.number_of_isNumeral source).isNumeric⟩

theorem exists_next_of_yields {scanner last : Scanner} {line : List Token} {ending : Token}
    (yields : TokenFeed.Yields scanner line ending last) :
    ∀ token ∈ line, ∃ earlier : Scanner, earlier.next.1 = token := by
  induction yields with
  | ending step closes => simp
  | @token scanner middle last token ending line step inside tail ih =>
      intro other member
      rcases List.mem_cons.mp member with rfl | later
      · exact ⟨scanner, congrArg Prod.fst step⟩
      · exact ih other later

end Scanner

theorem Statement.Blames.code_ne {ending : Token} {line : List Token} {fault : Fault}
    (blames : Blames ending line fault) : fault.code ≠ 103 := by
  cases blames with
  | token _ code _ =>
      rcases code with code | code
      · simp [code]
      · simp [code]
  | @inside token content error _ _ _ =>
      rcases Fault.unreadableText_code error token with ⟨code, _⟩ | ⟨code, _⟩
      · simp [code]
      · simp [code]

namespace Compiled

theorem code_ne_of_failure {scanner rest : Scanner} {report : Diagnostic}
    (answered : nextLine scanner = some (.failure report, rest)) : report.code ≠ 103 := by
  obtain ⟨line, ending, yields⟩ := yields_of_nextLine answered
  obtain ⟨fault, rejected, rfl⟩ := (nextLine_eq_failure_iff yields report).mp answered
  have blames := rejected.blames fun token member lexeme kind => by
    obtain ⟨earlier, rfl⟩ := Scanner.exists_next_of_yields yields token member
    exact earlier.number_coded_next kind
  exact blames.code_ne

/-- Numbers are coded one byte for each character and can be read again from their bytes; what no number
is written with is refused at its place. A scanner hands out no such number, so no line of a program is
refused for one. -/
theorem numbers_coded_and_reversible :
    (∀ token lexeme, token.kind = .number lexeme → Numeral.Coded token lexeme) ∧
    (∀ first second firstLexeme secondLexeme firstBytes secondBytes,
      first.kind = .number firstLexeme → second.kind = .number secondLexeme →
      ByteCode.number first = .ok firstBytes → ByteCode.number second = .ok secondBytes →
      (firstBytes = secondBytes ↔
        firstLexeme.toList.map Numeral.upperMark = secondLexeme.toList.map Numeral.upperMark)) ∧
    (∀ text tokens last, (Scanner.ofText text).tokens = some (tokens, last) →
      ∀ token ∈ tokens, ∀ lexeme, token.kind = .number lexeme →
        ∃ bytes, ByteCode.number token = .ok bytes) ∧
    ∀ (scanner rest : Scanner) (report : Diagnostic),
      nextLine scanner = some (.failure report, rest) → report.code ≠ 103 := by
  refine ⟨fun token lexeme kind => Numeral.coded_of_kind kind, ?_, ?_, fun _ _ _ => code_ne_of_failure⟩
  · intro first second firstLexeme secondLexeme firstBytes secondBytes firstKind secondKind firstCoded
      secondCoded
    have firstNumeric := (Numeral.coded_of_kind firstKind).succeeds_iff.mp ⟨_, firstCoded⟩
    have secondNumeric := (Numeral.coded_of_kind secondKind).succeeds_iff.mp ⟨_, secondCoded⟩
    rw [Numeral.number_of_isNumeric firstKind firstNumeric] at firstCoded
    rw [Numeral.number_of_isNumeric secondKind secondNumeric] at secondCoded
    cases firstCoded
    cases secondCoded
    exact Numeral.map_byteOf_eq_iff firstNumeric secondNumeric
  · intro text tokens last ends token member lexeme kind
    obtain ⟨index, found⟩ := List.mem_iff_getElem?.mp member
    obtain ⟨rfl, _⟩ := Scanner.next_after_of_tokens ends found
    exact ((Scanner.ofText text).after index).number_coded_next kind

theorem numbers_coded_and_reversible_small_mark :
    (∃ index c fault, Numeral.FirstStrange ['5', 'e', 'x'] index c ∧
      ByteCode.number ⟨.number (.ofList ['5', 'e', 'x']), ⟨3, 1, 3, 3⟩⟩ = .error fault ∧
      fault.code = 103 ∧ fault.span = (⟨3, 1, 3, 3⟩ : Span).columnAt index) ∧
    (∃ bytes, ByteCode.number ⟨.number (.ofList ['5', 'e', '2']), ⟨1, 1, 1, 3⟩⟩ = .ok bytes ∧
      ByteCode.number ⟨.number (.ofList ['5', 'E', '2']), ⟨1, 1, 1, 3⟩⟩ = .ok bytes) ∧
    (∃ tokens last, (Scanner.ofText ['5', 'e', '2']).tokens = some (tokens, last) ∧
      ⟨.number (.ofList ['5', 'e', '2']), ⟨1, 1, 1, 3⟩⟩ ∈ tokens) ∧
    ∃ report rest, nextLine (Scanner.ofText ['5', 'e', 'x']) = some (.failure report, rest) ∧
      report.code ≠ 103 := by
  obtain ⟨coded, reversible, scanned, located⟩ := numbers_coded_and_reversible
  have numeral : Lexes true 0 ['5', 'e', '2']
      [⟨0, ⟨['5', 'e', '2'], .number (.ofList ['5', 'e', '2']), none⟩⟩] := .lexeme rfl rfl rfl (.blank rfl)
  obtain ⟨last, ends, _⟩ := (Scanner.tokens_ofText_iff ['5', 'e', '2'] _ _).mpr (.cons numeral .nil)
  obtain ⟨bytes, small⟩ := scanned _ _ _ ends ⟨.number (.ofList ['5', 'e', '2']), ⟨1, 1, 1, 3⟩⟩
    List.mem_cons_self _ rfl
  obtain ⟨others, large⟩ :=
    (coded ⟨.number (.ofList ['5', 'E', '2']), ⟨1, 1, 1, 3⟩⟩ _ rfl).succeeds_iff.mpr
      (by simp [Numeral.IsNumeric])
  have same := (reversible _ _ _ _ _ _ rfl rfl small large).mpr (by simp [Numeral.upperMark])
  refine ⟨?_, ⟨bytes, small, by rw [same, large]⟩, ⟨_, last, ends, List.mem_cons_self⟩, ?_⟩
  · have failed := (coded ⟨.number (.ofList ['5', 'e', 'x']), ⟨3, 1, 3, 3⟩⟩ _ rfl).fails
      (by simp [Numeral.IsNumeric])
    rwa [String.toList_ofList] at failed
  · have yields : ∃ ending rest, TokenFeed.Yields (Scanner.ofText ['5', 'e', 'x'])
        [⟨.identifier (.ofList ['5', 'e', 'x']), ⟨1, 1, 1, 3⟩⟩] ending rest :=
      ⟨_, _, .token rfl rfl (.ending rfl rfl)⟩
    obtain ⟨ending, rest, yields⟩ := yields
    have refused := nextLine_eq yields
    exact ⟨_, rest, refused, located _ rest _ refused⟩

end Compiled

end Calculator
