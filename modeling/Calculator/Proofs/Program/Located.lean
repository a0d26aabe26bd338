import Calculator.Proofs.Alpha.Offending
import Calculator.Proofs.Numeral
import Calculator.Proofs.Program.Scanned

/-! Where the reports of lines that do not compile point: at a token of the line, or at the character of
its text literal that has to be changed. -/

namespace Calculator

open Statement TokenFeed

namespace ByteCode

theorem collect_of_pack {room : Nat} {readings : List (Except Alpha.ReadError UInt8)}
    {error : Alpha.ReadError} (failed : pack room readings = .error (.unreadable error)) :
    Alpha.collect readings = .error error := by
  fun_induction pack room readings with
  | case1 => cases failed
  | case2 => cases failed
  | case3 room first rest =>
      cases failed
      rfl
  | case4 room code rest codes packed ih => cases failed
  | case5 room code rest other packed ih =>
      cases failed
      rw [Alpha.collect, ih packed]

theorem text_failure {placement : Placement} {token : Token} {content : String} {fault : Fault}
    (kind : token.kind = .text content) (failed : text placement token = .error fault) :
    (∃ error, Alpha.encode content.toList = .error error ∧ fault = .unreadableText error token) ∨
      ∃ excess, fault = .textTooLong placement.room excess token := by
  simp only [text, kind] at failed
  split at failed
  · cases failed
  · next error packed =>
      cases failed
      exact .inl ⟨error, collect_of_pack packed, rfl⟩
  · next excess packed =>
      cases failed
      exact .inr ⟨excess, rfl⟩

end ByteCode

theorem Fault.unreadableText_code (error : Alpha.ReadError) (token : Token) :
    (unreadableText error token).code = 200 ∧ (∃ defect, error.problem = .malformed defect) ∨
      (unreadableText error token).code = 201 ∧ ∃ c, error.problem = .unsupported c := by
  rcases problem : error.problem with defect | c
  · exact .inl ⟨by simp only [Fault.code, problem], defect, rfl⟩
  · exact .inr ⟨by simp only [Fault.code, problem], c, rfl⟩

namespace Statement

/-- The token is the text literal of a line: its first token, or the one behind the append mark. -/
def IsLiteral (line : List Token) (token : Token) : Prop :=
  line.head? = some token ∨ ∃ mark tail, line = mark :: token :: tail ∧ mark.kind = .append

theorem IsLiteral.append {line : List Token} {token : Token} (literal : IsLiteral line token)
    (later : List Token) : IsLiteral (line ++ later) token := by
  rcases literal with leads | ⟨mark, tail, rfl, marked⟩
  · left
    rw [List.head?_append, leads, Option.some_or]
  · exact .inr ⟨mark, tail ++ later, rfl, marked⟩

theorem IsLiteral.mem {line : List Token} {token : Token} (literal : IsLiteral line token) :
    token ∈ line := by
  rcases literal with leads | ⟨mark, tail, rfl, _⟩
  · exact List.mem_of_head? leads
  · simp

/-- What a fault points at: a token of the line or its end, or something inside its text literal. -/
inductive Blames (ending : Token) (line : List Token) : Fault → Prop
  | token {fault : Fault} {token : Token} (member : token ∈ line ++ [ending])
      (code : fault.code = 100 ∨ fault.code = 300) (place : fault.span = token.span) :
      Blames ending line fault
  | inside {token : Token} {content : String} {error : Alpha.ReadError} (literal : IsLiteral line token)
      (kind : token.kind = .text content) (failed : Alpha.encode content.toList = .error error) :
      Blames ending line (.unreadableText error token)

theorem blames_of_text {ending token : Token} {line : List Token} {placement : ByteCode.Placement}
    {content : String} {fault : Fault} (literal : IsLiteral line token)
    (kind : token.kind = .text content) (failed : ByteCode.text placement token = .error fault) :
    Blames ending line fault := by
  rcases ByteCode.text_failure kind failed with ⟨error, unreadable, rfl⟩ | ⟨excess, rfl⟩
  · exact .inside literal kind unreadable
  · exact .token (List.mem_append_left _ literal.mem) (.inr rfl) rfl

theorem Rejected.blames {ending : Token} {line : List Token} {fault : Fault}
    (rejected : Rejected ending line fault)
    (numbers : ∀ token ∈ line, ∀ lexeme, token.kind = .number lexeme →
      ∃ bytes, ByteCode.number token = .ok bytes) :
    Blames ending line fault := by
  cases rejected with
  | unsupported _ _ => exact .token (by simp) (.inl rfl) rfl
  | @literal phrase tail fault failed =>
      generalize outcome : Except.error fault = result at failed
      cases failed with
      | @number token lexeme kind =>
          obtain ⟨bytes, coded⟩ := numbers token (by simp) lexeme kind
          rw [coded] at outcome
          cases outcome
      | text kind => exact blames_of_text (.inl rfl) kind outcome.symm
      | @append mark token content marked kind =>
          exact blames_of_text (.inr ⟨mark, tail, rfl, marked⟩) kind outcome.symm
  | @textMissing mark tail marked other =>
      have member : tail.headD ending ∈ mark :: tail ++ [ending] := by
        cases tail with
        | nil => simp
        | cons token tail => simp
      exact .token member (.inl rfl) rfl
  | trailing _ _ => exact .token (by simp) (.inl rfl) rfl

end Statement

theorem Span.columnAt_toNat {span : Span} {offset : Nat}
    (inside : span.startColumn.toNat + offset < 2 ^ 32) :
    (span.columnAt offset).startColumn.toNat = span.startColumn.toNat + offset := by
  have limit : Span.limit = 2 ^ 32 - 1 := rfl
  have column : min (span.startColumn.toNat + offset) Span.limit = span.startColumn.toNat + offset := by
    omega
  simp only [columnAt, point, column, toNat_ofNat_of_lt inside]

namespace Lexes

variable {first : Bool} {text : List Char} {marks : List Mark}

theorem number_coded (lexes : Lexes first 0 text marks) (number : Nat) :
    ∀ token ∈ marks.map (·.token number), ∀ lexeme, token.kind = .number lexeme →
      ∃ bytes, ByteCode.number token = .ok bytes := by
  intro token member lexeme kind
  obtain ⟨mark, among, rfl⟩ := List.mem_map.mp member
  obtain ⟨start, c, rest, shape, _⟩ := lexes.read_at mark among
  have numeral := Lexeme.readFrom_read start c rest
  rw [← shape, show mark.lexeme.kind = .number lexeme from kind] at numeral
  exact ⟨_, Numeral.number_of_isNumeric kind (Numeral.number_of_isNumeral numeral).isNumeric⟩

theorem content_at (lexes : Lexes first 0 text marks) {mark : Mark} (among : mark ∈ marks)
    {content : String} (kind : mark.lexeme.kind = .text content) {index : Nat} {c : Char}
    (character : content.toList[index]? = some c) : text[mark.offset + (1 + index)]? = some c := by
  obtain ⟨start, d, rest, shape, _, _, place⟩ := lexes.read_at mark among
  have source := Lexeme.readFrom_read start d rest
  rw [← shape, kind] at source
  obtain ⟨behind, split⟩ : content.toList <+: rest := source
  have inside := (List.getElem?_eq_some_iff.mp character).1
  rw [Nat.sub_zero] at place
  rw [← List.getElem?_drop, place, Nat.add_comm 1, List.getElem?_cons_succ, ← split,
    List.getElem?_append_left inside]
  exact character

end Lexes

theorem span_line (number length : Nat) (marks : List Mark) (lines : number < 2 ^ 32) :
    ∀ token ∈ marks.map (·.token number) ++ [lineEnding number length],
      token.span.startLine.toNat = number ∧ token.span.endLine.toNat = number := by
  intro token member
  rcases List.mem_append.mp member with listed | final
  · obtain ⟨mark, among, rfl⟩ := List.mem_map.mp listed
    exact ⟨toNat_ofNat_of_lt lines, toNat_ofNat_of_lt lines⟩
  · rw [List.mem_singleton.mp final]
    exact ⟨toNat_ofNat_of_lt lines, toNat_ofNat_of_lt lines⟩

def tokensOn (number : Nat) (tokens : List Token) : List Token :=
  tokens.filter fun token => token.span.startLine.toNat = number

theorem tokensOn_append (number : Nat) (tokens later : List Token) :
    tokensOn number (tokens ++ later) = tokensOn number tokens ++ tokensOn number later :=
  List.filter_append ..

theorem tokensOn_of_all {number : Nat} {tokens : List Token}
    (all : ∀ token ∈ tokens, token.span.startLine.toNat = number) : tokensOn number tokens = tokens := by
  apply List.filter_eq_self.mpr
  intro token member
  simpa using all token member

theorem tokensOn_of_none {number : Nat} {tokens : List Token}
    (none : ∀ token ∈ tokens, token.span.startLine.toNat ≠ number) : tokensOn number tokens = [] := by
  apply List.filter_eq_nil_iff.mpr
  intro token member
  simpa using none token member

namespace Scanner

theorem Scanned.startLine_ge {listing : Listing} {number : Nat} {lines : List (List Char)}
    {tokens : List Token} {reports : List Diagnostic}
    (scanned : Scanned listing number lines tokens reports) (fits : number + lines.length ≤ 2 ^ 32) :
    ∀ token ∈ tokens, number ≤ token.span.startLine.toNat := by
  induction scanned with
  | nil => simp
  | @cons number line lines marks tokens reports lexes later ih =>
      rw [List.length_cons] at fits
      intro token member
      rw [List.append_cons] at member
      rcases List.mem_append.mp member with here | below
      · exact Nat.le_of_eq (span_line number _ marks (by omega) token here).1.symm
      · have above := ih (by omega) token below
        omega

/-- The tokens of a line are its lexemes and its end. -/
theorem Scanned.tokensOn_eq {listing : Listing} {number : Nat} {lines : List (List Char)}
    {tokens : List Token} {reports : List Diagnostic}
    (scanned : Scanned listing number lines tokens reports) (fits : number + lines.length ≤ 2 ^ 32)
    {index : Nat} {line : List Char} (found : lines[index]? = some line) :
    ∃ marks, Lexes true 0 line marks ∧ tokensOn (number + index) tokens =
      marks.map (·.token (number + index)) ++ [lineEnding (number + index) line.length] := by
  induction scanned generalizing index with
  | nil => cases found
  | @cons number first lines marks tokens reports lexes later ih =>
      rw [List.length_cons] at fits
      have here := span_line number first.length marks (by omega)
      have below := later.startLine_ge (by omega)
      rw [List.append_cons, tokensOn_append]
      cases index with
      | zero =>
          obtain rfl : first = line := by simpa using found
          refine ⟨marks, lexes, ?_⟩
          rw [Nat.add_zero, tokensOn_of_all fun token member => (here token member).1,
            tokensOn_of_none, List.append_nil]
          intro token member
          have above := below token member
          omega
      | succ index =>
          obtain ⟨others, lexesLater, same⟩ := ih (by omega) found
          refine ⟨others, lexesLater, ?_⟩
          rw [Nat.add_right_comm, Nat.add_assoc] at same
          rw [same, tokensOn_of_none, List.nil_append]
          intro token member
          have above := (here token member).1
          omega

end Scanner

theorem Listing.charAt?_ofText {text chars : List Char} {index column : Nat} {span : Span}
    (bound : text.length < 2 ^ 32 - 1) (found : (text.splitOn '\n')[index]? = some chars)
    (plain : chars.getLast? ≠ some '\r') (number : span.startLine = UInt32.ofNat (1 + index))
    (place : span.startColumn.toNat = column + 1) :
    (Listing.ofText text).charAt? span = chars[column]? := by
  have whole := Listing.line?_ofText bound found
  rw [dropReturn, if_neg plain, ← number] at whole
  rw [charAt?_of_line whole (by omega), place, Nat.add_sub_cancel]

/-- A character of a text literal is found in the listing one column further than its index, for the
opening quote. -/
theorem Lexes.charAt?_content {text line : List Char} {index : Nat} {marks : List Mark}
    (lexes : Lexes true 0 line marks) (bound : text.length < 2 ^ 32 - 1)
    (found : (tokenLines text)[index]? = some line) (plain : line.getLast? ≠ some '\r') {mark : Mark}
    (among : mark ∈ marks) {content : String} (kind : mark.lexeme.kind = .text content) {place : Nat}
    {c : Char} (character : content.toList[place]? = some c) :
    (Listing.ofText text).charAt? ((mark.span (1 + index)).columnAt (1 + place)) = some c := by
  have fits := (getElem?_tokenLines found).2
  have within := lexes.bounds mark among
  have spelled := lexes.content_at among kind character
  have inside := (List.getElem?_eq_some_iff.mp spelled).1
  obtain ⟨_, start, _, _⟩ := mark.span_toNat (1 + index) (by omega) within.2.1 (by omega)
  have column : ((mark.span (1 + index)).columnAt (1 + place)).startColumn.toNat =
      mark.offset + (1 + place) + 1 := by
    rw [Span.columnAt_toNat (by omega), start]
    omega
  rw [Listing.charAt?_ofText bound (getElem?_splitOn_of_tokenLines found) plain rfl column]
  exact spelled

structure Located (text : List Char) (number : Nat) (line : List Token) (report : Diagnostic) : Prop where
  code : report.code ∈ [100, 200, 201, 300]
  startLine : report.span.startLine.toNat = number
  endLine : report.span.endLine.toNat = number
  sourceLine : ((Listing.ofText text).line? (UInt32.ofNat number)).map String.ofList = some report.sourceLine
  character : report.code = 200 ∨ report.code = 201 → ∃ token content error c,
    Statement.IsLiteral line token ∧ token.kind = .text content ∧
    Alpha.encode content.toList = .error error ∧ content.toList[error.offending]? = some c ∧
    (Listing.ofText text).charAt? report.span = some c ∧
    (report.code = 201 → error.problem = .unsupported c)
  token : ¬(report.code = 200 ∨ report.code = 201) → ∃ token ∈ line, report.span = token.span

theorem Statement.Blames.located {text line : List Char} {index : Nat} {marks : List Mark} {fault : Fault}
    (bound : text.length < 2 ^ 32 - 1) (found : (tokenLines text)[index]? = some line)
    (plain : line.getLast? ≠ some '\r') (lexes : Lexes true 0 line marks)
    (blames : Blames (lineEnding (1 + index) line.length) (marks.map (·.token (1 + index))) fault) :
    Located text (1 + index) (marks.map (·.token (1 + index)) ++ [lineEnding (1 + index) line.length])
      (fault.report (some (.ofList (Listing.dropReturn line)))) := by
  have fits := (getElem?_tokenLines found).2
  have lines : 1 + index < 2 ^ 32 := by omega
  have piece := getElem?_splitOn_of_tokenLines found
  have source := congrArg (Option.map String.ofList) (Listing.line?_ofText bound piece)
  have place := span_line (1 + index) line.length marks lines
  cases blames with
  | @token fault token member code same =>
      have other : ¬(fault.code = 200 ∨ fault.code = 201) := by
        rcases code with code | code
        · simp [code]
        · simp [code]
      refine ⟨?_, ?_, ?_, source, fun unreadable => absurd unreadable other, fun _ => ⟨token, member, same⟩⟩
      · rcases code with code | code
        · simp [code]
        · simp [code]
      · simpa [same] using (place token member).1
      · simpa [same] using (place token member).2
  | @inside token content error literal kind failed =>
      obtain ⟨mark, among, rfl⟩ := List.mem_map.mp literal.mem
      obtain ⟨c, character, strange⟩ := Alpha.exists_offending failed
      have shown := lexes.charAt?_content bound found plain among kind character
      have code := Fault.unreadableText_code error (mark.token (1 + index))
      refine ⟨?_, toNat_ofNat_of_lt lines, toNat_ofNat_of_lt lines, source, ?_, ?_⟩
      · rcases code with ⟨code, _⟩ | ⟨code, _⟩
        · simp [code]
        · simp [code]
      · intro _
        refine ⟨_, content, error, c, literal.append _, kind, failed, character, shown, ?_⟩
        intro unsupported
        rcases code with ⟨code, _⟩ | ⟨_, other, problem⟩
        · cases code.symm.trans unsupported
        · rw [problem, strange other problem]
      · intro other
        exact absurd (code.imp And.left And.left) other

theorem length_tokenLines_le (text : List Char) : (tokenLines text).length ≤ text.length + 1 := by
  unfold tokenLines
  split
  · simp
  · rw [length_statementLines]
    have lines := length_splitOn_le text
    simp only [Listing.ofText, Listing.lineCount, List.length_map]
    omega

namespace Program

open Compiled

theorem rejected_of_failure {text : List Char} {results : List Compiled} {final : Scanner} {index : Nat}
    {report : Diagnostic} (bound : text.length < 2 ^ 32 - 1)
    (ends : (Scanner.ofText text).tokens.isSome = true) (compiled : compile text = some (results, final))
    (failure : results[index]? = some (.failure report)) :
    ∃ line marks fault, (tokenLines text)[index]? = some line ∧ Lexes true 0 line marks ∧
      Rejected (lineEnding (1 + index) line.length) (marks.map (·.token (1 + index))) fault ∧
      report = fault.report (some (.ofList (Listing.dropReturn line))) := by
  have reached := (List.getElem?_eq_some_iff.mp failure).1
  obtain ⟨line, handed, ending, last, found, yields, result⟩ := statement_at bound ends compiled reached
  rw [failure] at result
  have listed := getElem?_tokenLines_of_statementLines found
  have on := Scanner.onLine_on (1 + index) (getElem?_tokenLines listed).1
  rcases outcome : verdict ending handed with _ | (fault | bytes)
  · rw [outcome] at result
    cases result
  · have rejected := (verdict_eq_error_iff (proper_of_yields yields) fault).mp outcome
    obtain ⟨marks, lexes, rfl, rfl, _⟩ := (Scanner.yields_iff_lexes on _ _ _).mp yields
    rw [Nat.zero_add] at rejected
    rw [outcome] at result
    cases result
    exact ⟨line, marks, fault, listed, lexes, rejected, rfl⟩
  · rw [outcome] at result
    cases result

/-- Every line that does not compile is reported with its own text, at the character of its text literal
that cannot be read or at one of its tokens. -/
theorem compile_failures_located (text : List Char) (bound : text.length < 2 ^ 32 - 1)
    (plain : ∀ line ∈ text.splitOn '\n', line.getLast? ≠ some '\r') {tokens : List Token} {last : Scanner}
    (ends : (Scanner.ofText text).tokens = some (tokens, last)) :
    ∃ results final, compile text = some (results, final) ∧ ∀ index report,
      results[index]? = some (.failure report) →
        Located text (1 + index) (tokensOn (1 + index) tokens) report := by
  have finished : (Scanner.ofText text).tokens.isSome = true := by rw [ends]; rfl
  have lines := length_tokenLines_le text
  have scanned := (Scanner.tokens_ofText_iff text tokens last.diagnostics).mp ⟨last, ends, rfl⟩
  obtain ⟨results, final, compiled, _⟩ := compile_ofLines text finished
  refine ⟨results, final, compiled, ?_⟩
  intro index report failure
  obtain ⟨line, marks, fault, found, lexes, rejected, rfl⟩ :=
    rejected_of_failure bound finished compiled failure
  obtain ⟨others, again, listed⟩ := scanned.tokensOn_eq (by omega) found
  obtain rfl := lexes.unique again
  have piece := getElem?_splitOn_of_tokenLines found
  have blames := rejected.blames (lexes.number_coded (1 + index))
  rw [listed]
  exact blames.located bound found (plain line (List.mem_of_getElem? piece)) lexes

theorem compile_failures_located_unsupported :
    ∃ tokens last results final report,
      (Scanner.ofText ['1', '\n', '>', '"', 'A', 'ж', '"']).tokens = some (tokens, last) ∧
      compile ['1', '\n', '>', '"', 'A', 'ж', '"'] = some (results, final) ∧
      results[1]? = some (.failure report) ∧ report.code = 201 ∧ report.span = .point 2 4 ∧
      Located ['1', '\n', '>', '"', 'A', 'ж', '"'] 2 (tokensOn 2 tokens) report := by
  have above : Lexes true 0 ['1'] [⟨0, ⟨['1'], .number "1", none⟩⟩] := .lexeme rfl rfl rfl (.blank rfl)
  have below : Lexes true 0 ['>', '"', 'A', 'ж', '"']
      [⟨0, ⟨['>'], .append, none⟩⟩, ⟨1, ⟨['"', 'A', 'ж', '"'], .text "Aж", none⟩⟩] :=
    .lexeme rfl rfl rfl (.lexeme rfl rfl rfl (.blank rfl))
  obtain ⟨last, ends, _⟩ := (Scanner.tokens_ofText_iff ['1', '\n', '>', '"', 'A', 'ж', '"'] _ _).mpr
    (.cons above (.cons below .nil))
  obtain ⟨results, final, compiled, located⟩ :=
    compile_failures_located ['1', '\n', '>', '"', 'A', 'ж', '"'] (by decide) (by decide) ends
  obtain ⟨same, _, again, ofLines⟩ := compile_ofLines _ (by rw [ends]; rfl)
  obtain ⟨rfl, rfl⟩ : results = same ∧ final = _ := by simpa [compiled] using again
  obtain ⟨handed, ending, past, yields, failure⟩ := ofLines.getElem? 1 ['>', '"', 'A', 'ж', '"'] (by decide)
  obtain ⟨rfl, rfl, _⟩ := yields.unique (below.yields (Scanner.onLine_on 2 (by decide)) rfl)
  have unreadable : ByteCode.text .append ⟨.text "Aж", ⟨2, 2, 2, 5⟩⟩ =
      .error (.unreadableText ⟨1, .unsupported 'ж'⟩ ⟨.text "Aж", ⟨2, 2, 2, 5⟩⟩) := by cbv
  have phrase : Phrase [⟨.append, ⟨2, 1, 2, 1⟩⟩, ⟨.text "Aж", ⟨2, 2, 2, 5⟩⟩]
      (.error (.unreadableText ⟨1, .unsupported 'ж'⟩ ⟨.text "Aж", ⟨2, 2, 2, 5⟩⟩)) := by
    rw [← unreadable]
    exact .append rfl rfl
  have refused := verdict_phrase phrase [] (lineEnding 2 5)
  have reported := failure.trans (congrArg (fun result => some (ofVerdict _ result)) refused)
  exact ⟨_, last, results, final, _, ends, compiled, reported, rfl, rfl, located 1 _ reported⟩

end Program

end Calculator
