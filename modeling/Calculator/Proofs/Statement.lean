import Calculator.Proofs.Fault
import Calculator.Proofs.Scanner.Line
import Calculator.Statement

/-! The grammar of a statement line, and what a line comes to by it. -/

namespace Calculator

namespace Statement

inductive Phrase : List Token → Except Fault (List UInt8) → Prop
  | number {token : Token} {lexeme : String} (kind : token.kind = .number lexeme) :
      Phrase [token] (ByteCode.number token)
  | text {token : Token} {content : String} (kind : token.kind = .text content) :
      Phrase [token] (ByteCode.text .replace token)
  | append {mark token : Token} {content : String} (marked : mark.kind = .append)
      (kind : token.kind = .text content) : Phrase [mark, token] (ByteCode.text .append token)

def Over (line : List Token) : Prop :=
  line = [] ∨ ∃ comment tail, line = comment :: tail ∧ comment.kind = .comment

def Accepted (line : List Token) (bytes : List UInt8) : Prop :=
  ∃ phrase tail, line = phrase ++ tail ∧ Phrase phrase (.ok bytes) ∧ Over tail

def Starts (kind : Token.Kind) : Prop :=
  (∃ lexeme, kind = .number lexeme) ∨ (∃ content, kind = .text content) ∨ kind = .append

/-- What is wrong first with a line that is no statement. -/
inductive Rejected (ending : Token) : List Token → Fault → Prop
  | unsupported {token : Token} {tail : List Token} (idle : ¬Starts token.kind)
      (stray : token.kind ≠ .comment) : Rejected ending (token :: tail) (.unsupportedStatement token)
  | literal {phrase tail : List Token} {fault : Fault} (failed : Phrase phrase (.error fault)) :
      Rejected ending (phrase ++ tail) fault
  | textMissing {mark : Token} {tail : List Token} (marked : mark.kind = .append)
      (other : ∀ content, (tail.headD ending).kind ≠ .text content) :
      Rejected ending (mark :: tail) (.literalExpected .text (tail.headD ending))
  | trailing {phrase tail : List Token} {token : Token} {bytes : List UInt8}
      (complete : Phrase phrase (.ok bytes)) (stray : token.kind ≠ .comment) :
      Rejected ending (phrase ++ token :: tail) (.trailingToken token)

/-- What is reported of a line that is no statement, the line shown with it apart. -/
inductive Refusal (ending : Token) : List Token → Diagnostic → Prop
  | unsupported {token : Token} {tail : List Token} {diagnostic : Diagnostic}
      (idle : ¬Starts token.kind) (stray : token.kind ≠ .comment)
      (points : diagnostic.PointsAt "Unsupported statement" token) :
      Refusal ending (token :: tail) diagnostic
  | literal {phrase tail : List Token} {fault : Fault} {diagnostic : Diagnostic}
      (failed : Phrase phrase (.error fault)) (told : fault.ToldBy diagnostic) :
      Refusal ending (phrase ++ tail) diagnostic
  | textMissing {mark : Token} {tail : List Token} {diagnostic : Diagnostic}
      (marked : mark.kind = .append) (other : ∀ content, (tail.headD ending).kind ≠ .text content)
      (points : diagnostic.PointsAt "Text expected" (tail.headD ending)) :
      Refusal ending (mark :: tail) diagnostic
  | trailing {phrase tail : List Token} {token : Token} {bytes : List UInt8} {diagnostic : Diagnostic}
      (complete : Phrase phrase (.ok bytes)) (stray : token.kind ≠ .comment)
      (points : diagnostic.PointsAt "Unexpected" token) :
      Refusal ending (phrase ++ token :: tail) diagnostic

theorem refusal_iff {ending : Token} {line : List Token} {diagnostic : Diagnostic} :
    Refusal ending line diagnostic ↔ ∃ fault, Rejected ending line fault ∧ fault.ToldBy diagnostic := by
  constructor
  · intro refusal
    cases refusal with
    | unsupported idle stray points =>
        exact ⟨_, .unsupported idle stray, (Fault.unsupportedStatement_toldBy_iff _).mpr points⟩
    | literal failed told => exact ⟨_, .literal failed, told⟩
    | textMissing marked other points =>
        exact ⟨_, .textMissing marked other, (Fault.textExpected_toldBy_iff _).mpr points⟩
    | trailing complete stray points =>
        exact ⟨_, .trailing complete stray, (Fault.trailingToken_toldBy_iff _).mpr points⟩
  · rintro ⟨fault, rejected, told⟩
    cases rejected with
    | unsupported idle stray =>
        exact .unsupported idle stray ((Fault.unsupportedStatement_toldBy_iff _).mp told)
    | literal failed => exact .literal failed told
    | textMissing marked other =>
        exact .textMissing marked other ((Fault.textExpected_toldBy_iff _).mp told)
    | trailing complete stray =>
        exact .trailing complete stray ((Fault.trailingToken_toldBy_iff _).mp told)

def literal (first : Token) (tail : List Token) (ending : Token) :
    Except Fault (List UInt8) × List Token :=
  match first.kind with
  | .number _ => (ByteCode.number first, tail)
  | .text _ => (ByteCode.text .replace first, tail)
  | .append => (ByteCode.text .append (tail.headD ending), tail.tail)
  | _ => (.error (.unsupportedStatement first), tail)

def outcome (first : Token) (tail : List Token) (ending : Token) : Except Fault (List UInt8) :=
  match literal first tail ending with
  | (.error fault, _) => .error fault
  | (.ok bytes, tail) =>
      if (tail.headD ending).kind.endsStatement then .ok bytes
      else .error (.trailingToken (tail.headD ending))

def verdict (ending : Token) : List Token → Option (Except Fault (List UInt8))
  | [] => none
  | first :: tail => if first.kind.endsStatement then none else some (outcome first tail ending)

theorem text_eq_error (placement : ByteCode.Placement) (token : Token)
    (other : ∀ content, token.kind ≠ .text content) :
    ByteCode.text placement token = .error (.literalExpected .text token) := by
  unfold ByteCode.text
  split
  · next content kind => exact absurd kind (other content)
  · rfl

theorem literal_of_phrase {phrase : List Token} {result : Except Fault (List UInt8)}
    (spoken : Phrase phrase result) (tail : List Token) (ending : Token) :
    ∃ first more, phrase = first :: more ∧ Starts first.kind ∧
      literal first (more ++ tail) ending = (result, tail) := by
  cases spoken with
  | @number token lexeme kind =>
      exact ⟨token, [], rfl, .inl ⟨lexeme, kind⟩, by simp [literal, kind]⟩
  | @text token content kind =>
      exact ⟨token, [], rfl, .inr (.inl ⟨content, kind⟩), by simp [literal, kind]⟩
  | @append mark token content marked kind =>
      exact ⟨mark, [token], rfl, .inr (.inr marked), by simp [literal, marked]⟩

theorem phrase_or_textMissing {first : Token} (starts : Starts first.kind) (tail : List Token)
    (ending : Token) (ends : ending.isEndOfLine = true) :
    (∃ phrase result left, first :: tail = phrase ++ left ∧ Phrase phrase result ∧
      literal first tail ending = (result, left)) ∨
    first.kind = .append ∧ (∀ content, (tail.headD ending).kind ≠ .text content) := by
  rcases starts with ⟨lexeme, kind⟩ | ⟨content, kind⟩ | kind
  · exact .inl ⟨[first], _, tail, rfl, .number kind, by simp [literal, kind]⟩
  · exact .inl ⟨[first], _, tail, rfl, .text kind, by simp [literal, kind]⟩
  · cases tail with
    | nil =>
        refine .inr ⟨kind, ?_⟩
        simp only [Token.isEndOfLine, beq_iff_eq] at ends
        simp [ends]
    | cons token left =>
        by_cases texts : ∃ content, token.kind = .text content
        · obtain ⟨content, found⟩ := texts
          exact .inl ⟨[first, token], _, left, rfl, .append kind found, by simp [literal, kind]⟩
        · exact .inr ⟨kind, by simpa using texts⟩

structure Proper (line : List Token) (ending : Token) : Prop where
  inside : ∀ token ∈ line, token.isEndOfLine = false
  ends : ending.isEndOfLine = true

theorem Proper.suffix {first second : List Token} {ending : Token}
    (proper : Proper (first ++ second) ending) : Proper second ending :=
  ⟨fun token member => proper.inside token (by simp [member]), proper.ends⟩

theorem Proper.endsStatement_iff {line : List Token} {ending : Token} (proper : Proper line ending) :
    (line.headD ending).kind.endsStatement = true ↔ Over line := by
  cases line with
  | nil =>
      have ends := proper.ends
      simp only [Token.isEndOfLine, beq_iff_eq] at ends
      simp [Over, ends, Token.Kind.endsStatement]
  | cons token tail =>
      have inside := proper.inside token (by simp)
      simp only [Token.isEndOfLine, beq_eq_false_iff_ne] at inside
      cases kind : token.kind <;> simp_all [Over, Token.Kind.endsStatement]

theorem Starts.endsStatement_eq {kind : Token.Kind} (starts : Starts kind) :
    kind.endsStatement = false := by
  rcases starts with ⟨_, rfl⟩ | ⟨_, rfl⟩ | rfl
  · rfl
  · rfl
  · rfl

theorem verdict_phrase {phrase : List Token} {result : Except Fault (List UInt8)}
    (spoken : Phrase phrase result) (tail : List Token) (ending : Token) :
    verdict ending (phrase ++ tail) = some (result.bind fun bytes =>
      if (tail.headD ending).kind.endsStatement then .ok bytes
      else .error (.trailingToken (tail.headD ending))) := by
  obtain ⟨first, more, rfl, starts, spelled⟩ := literal_of_phrase spoken tail ending
  rw [List.cons_append, verdict, starts.endsStatement_eq, outcome, spelled]
  cases result with
  | error fault => rfl
  | ok bytes => rfl

theorem verdict_of_accepted {line : List Token} {ending : Token} {bytes : List UInt8}
    (proper : Proper line ending) (accepted : Accepted line bytes) :
    verdict ending line = some (.ok bytes) := by
  obtain ⟨phrase, tail, rfl, spoken, closes⟩ := accepted
  have ends := proper.suffix.endsStatement_iff.mpr closes
  rw [verdict_phrase spoken tail ending]
  simp only [Except.bind, ends, if_true]

theorem literal_of_idle {first : Token} (idle : ¬Starts first.kind) (tail : List Token)
    (ending : Token) : literal first tail ending = (.error (.unsupportedStatement first), tail) := by
  unfold literal
  cases kind : first.kind <;> simp_all [Starts]

theorem verdict_of_rejected {line : List Token} {ending : Token} {fault : Fault}
    (proper : Proper line ending) (rejected : Rejected ending line fault) :
    verdict ending line = some (.error fault) := by
  cases rejected with
  | @unsupported token tail idle stray =>
      have going : ¬token.kind.endsStatement = true := by
        intro ends
        have closes := proper.endsStatement_iff.mp ends
        simp [Over, stray] at closes
      simp [verdict, going, outcome, literal_of_idle idle]
  | @literal phrase tail fault failed =>
      rw [verdict_phrase failed]
      rfl
  | @textMissing mark tail marked other =>
      have failed := text_eq_error .append _ other
      simp only [verdict, outcome, literal, marked, Token.Kind.endsStatement, failed]
      rfl
  | @trailing phrase tail token bytes complete stray =>
      have going : ¬token.kind.endsStatement = true := by
        intro ends
        have closes := proper.suffix.endsStatement_iff.mp ends
        simp [Over, stray] at closes
      rw [verdict_phrase complete]
      simp [Except.bind, going]

/-- A line is over at once, a statement, or wrong in one way. -/
theorem verdict_cases {line : List Token} {ending : Token} (proper : Proper line ending) :
    (verdict ending line = none ∧ Over line) ∨ (∃ bytes, Accepted line bytes) ∨
      ∃ fault, Rejected ending line fault := by
  cases line with
  | nil => exact .inl ⟨rfl, .inl rfl⟩
  | cons first tail =>
      by_cases ends : first.kind.endsStatement = true
      · exact .inl ⟨by simp [verdict, ends], proper.endsStatement_iff.mp ends⟩
      · right
        have stray : first.kind ≠ .comment := by
          intro comment
          exact ends (by rw [comment]; rfl)
        by_cases starts : Starts first.kind
        · rcases phrase_or_textMissing starts tail ending proper.ends with
            ⟨phrase, result, left, split, spoken, _⟩ | ⟨marked, other⟩
          · rw [split] at proper ⊢
            cases result with
            | error fault => exact .inr ⟨fault, .literal spoken⟩
            | ok bytes =>
                by_cases closes : Over left
                · exact .inl ⟨bytes, phrase, left, rfl, spoken, closes⟩
                · cases left with
                  | nil => exact absurd (.inl rfl) closes
                  | cons token more =>
                      refine .inr ⟨_, .trailing spoken ?_⟩
                      intro comment
                      exact closes (.inr ⟨token, more, rfl, comment⟩)
          · exact .inr ⟨_, .textMissing marked other⟩
        · exact .inr ⟨_, .unsupported starts stray⟩

theorem verdict_eq_none_iff {line : List Token} {ending : Token} (proper : Proper line ending) :
    verdict ending line = none ↔ Over line := by
  constructor
  · intro none
    rcases verdict_cases proper with ⟨_, closes⟩ | ⟨bytes, accepted⟩ | ⟨fault, rejected⟩
    · exact closes
    · rw [verdict_of_accepted proper accepted] at none
      cases none
    · rw [verdict_of_rejected proper rejected] at none
      cases none
  · intro closes
    have ends := proper.endsStatement_iff.mpr closes
    cases line with
    | nil => rfl
    | cons first tail => simpa [verdict] using ends

theorem verdict_eq_ok_iff {line : List Token} {ending : Token} (proper : Proper line ending)
    (bytes : List UInt8) : verdict ending line = some (.ok bytes) ↔ Accepted line bytes := by
  refine ⟨?_, verdict_of_accepted proper⟩
  intro success
  rcases verdict_cases proper with ⟨none, _⟩ | ⟨other, accepted⟩ | ⟨fault, rejected⟩
  · rw [none] at success
    cases success
  · rw [verdict_of_accepted proper accepted] at success
    cases success
    exact accepted
  · rw [verdict_of_rejected proper rejected] at success
    cases success

theorem verdict_eq_error_iff {line : List Token} {ending : Token} (proper : Proper line ending)
    (fault : Fault) : verdict ending line = some (.error fault) ↔ Rejected ending line fault := by
  refine ⟨?_, verdict_of_rejected proper⟩
  intro failure
  rcases verdict_cases proper with ⟨none, _⟩ | ⟨bytes, accepted⟩ | ⟨other, rejected⟩
  · rw [none] at failure
    cases failure
  · rw [verdict_of_accepted proper accepted] at failure
    cases failure
  · rw [verdict_of_rejected proper rejected] at failure
    cases failure
    exact rejected

theorem number_error_startLine {token : Token} {fault : Fault}
    (failed : ByteCode.number token = .error fault) :
    fault.span.startLine = token.span.startLine := by
  unfold ByteCode.number at failed
  split at failed
  · split at failed
    · cases failed
    · cases failed
      rfl
  · cases failed
    rfl

theorem text_error_startLine {placement : ByteCode.Placement} {token : Token} {fault : Fault}
    (failed : ByteCode.text placement token = .error fault) :
    fault.span.startLine = token.span.startLine := by
  unfold ByteCode.text at failed
  split at failed
  · split at failed
    · cases failed
    · cases failed
      rfl
    · cases failed
      rfl
  · cases failed
    rfl

theorem Rejected.startLine_eq {line : List Token} {ending : Token} {fault : Fault} {number : UInt32}
    (rejected : Rejected ending line fault)
    (inside : ∀ token ∈ line, token.span.startLine = number)
    (last : ending.span.startLine = number) : fault.span.startLine = number := by
  cases rejected with
  | unsupported _ _ => exact inside _ (by simp)
  | @literal phrase tail fault failed =>
      generalize outcome : Except.error fault = result at failed
      cases failed with
      | number kind => exact (number_error_startLine outcome.symm).trans (inside _ (by simp))
      | text kind => exact (text_error_startLine outcome.symm).trans (inside _ (by simp))
      | append marked kind => exact (text_error_startLine outcome.symm).trans (inside _ (by simp))
  | @textMissing mark tail marked other =>
      cases tail with
      | nil => exact last
      | cons token tail => exact inside token (by simp)
  | trailing _ _ => exact inside _ (by simp)

theorem proper_of_yields {σ : Type} [TokenFeed σ] {feed rest : σ} {line : List Token}
    {ending : Token} (yields : TokenFeed.Yields feed line ending rest) : Proper line ending := by
  induction yields with
  | ending _ closes => exact ⟨by simp, closes⟩
  | token _ inside _ ih => exact ⟨by simpa [inside] using ih.inside, ih.ends⟩

end Statement

namespace Compiled

open Statement Token TokenFeed

variable {σ : Type} [TokenFeed σ]

def ofVerdict (feed : σ) : Option (Except Fault (List UInt8)) → Compiled
  | none => .nothing
  | some result => ofResult feed result

theorem compile_eq {feed : LineFeed σ} {rest : σ} {tail : List Token} {ending first : Token}
    {statement : Statement} (classified : ofToken first = .ok statement)
    (holds : LineFeed.Holds feed tail ending rest) :
    ∃ behind, statement.compile feed = ((literal first tail ending).1, behind) ∧
      LineFeed.Holds behind (literal first tail ending).2 ending rest := by
  unfold ofToken at classified
  split at classified
  · next lexeme kind =>
      cases classified
      exact ⟨feed, by simp [Statement.compile, literal, kind], by simpa [literal, kind] using holds⟩
  · next content kind =>
      cases classified
      exact ⟨feed, by simp [Statement.compile, literal, kind], by simpa [literal, kind] using holds⟩
  · next kind =>
      cases classified
      obtain ⟨behind, step, left⟩ := holds.next_eq
      refine ⟨behind, ?_, by simpa [literal, kind] using left⟩
      simp only [Statement.compile, compileAppend, step, literal, kind]
  · cases classified

theorem literal_of_unsupported {first : Token} {fault : Fault}
    (unsupported : ofToken first = .error fault) (tail : List Token) (ending : Token) :
    literal first tail ending = (.error fault, tail) := by
  unfold ofToken at unsupported
  split at unsupported
  · cases unsupported
  · cases unsupported
  · cases unsupported
  · cases unsupported
    unfold literal
    split <;> simp_all

theorem statement_eq {feed : LineFeed σ} {rest : σ} {tail : List Token} {ending : Token}
    (first : Token) (holds : LineFeed.Holds feed tail ending rest) :
    ∃ behind left, statement first feed = (outcome first tail ending, behind) ∧
      LineFeed.Holds behind left ending rest := by
  unfold statement outcome
  cases classified : ofToken first with
  | error fault =>
      refine ⟨feed, tail, ?_, holds⟩
      simp only [literal_of_unsupported classified tail ending]
  | ok found =>
      obtain ⟨behind, compiled, left⟩ := compile_eq classified holds
      generalize literal first tail ending = spoken at compiled left
      obtain ⟨result, remaining⟩ := spoken
      simp only [compiled]
      cases result with
      | error fault => exact ⟨behind, remaining, rfl, left⟩
      | ok bytes =>
          obtain ⟨last, step, closes⟩ := left.next_eq
          exact ⟨last, remaining.tail, by simp only [step], closes⟩

/-- A line is compiled by its tokens alone, and only the wording of the report takes in the feed. -/
theorem nextLine_eq [Lawful σ] {feed rest : σ} {line : List Token} {ending : Token}
    (yields : Yields feed line ending rest) :
    nextLine feed = some (ofVerdict rest (verdict ending line), rest) := by
  obtain ⟨behind, step, left⟩ := (LineFeed.Holds.reading yields).next_eq
  have first : LineFeed.next (.ofFeed feed) = (line.headD ending, behind) := step
  have ends : ending.kind = .endOfLine := by
    simpa [isEndOfLine] using yields.isEndOfLine_ending
  unfold nextLine
  simp only [first]
  cases line with
  | nil => simp [ends, Kind.endsStatement, left.close_eq, verdict, ofVerdict]
  | cons token tail =>
      by_cases idle : token.kind.endsStatement = true
      · simp [idle, left.close_eq, verdict, ofVerdict]
      · obtain ⟨last, remaining, compiled, closes⟩ := statement_eq token left
        simp [idle, compiled, closes.close_eq, verdict, ofVerdict]

/-- Compiling the next line of a feed is decided by the grammar of its tokens. -/
structure Judged (feed : σ) (line : List Token) (ending : Token) (rest : σ) : Prop where
  answers : ∃ compiled, nextLine feed = some (compiled, rest)
  nothing_iff : nextLine feed = some (.nothing, rest) ↔ Over line
  code_iff : ∀ bytes, nextLine feed = some (.code bytes, rest) ↔ Accepted line bytes
  failure_iff : ∀ diagnostic, nextLine feed = some (.failure diagnostic, rest) ↔
    Refusal ending line diagnostic ∧
      diagnostic.sourceLine = (line? rest diagnostic.span.startLine).getD ""

theorem nextLine_eq_iff [Lawful σ] {feed rest : σ} {line : List Token} {ending : Token}
    (yields : Yields feed line ending rest) (compiled : Compiled) :
    nextLine feed = some (compiled, rest) ↔ ofVerdict rest (verdict ending line) = compiled := by
  simp [nextLine_eq yields]

theorem nextLine_eq_failure_iff [Lawful σ] {feed rest : σ} {line : List Token} {ending : Token}
    (yields : Yields feed line ending rest) (diagnostic : Diagnostic) :
    nextLine feed = some (.failure diagnostic, rest) ↔ ∃ fault, Rejected ending line fault ∧
      diagnostic = fault.report (line? rest fault.span.startLine) := by
  rw [nextLine_eq_iff yields]
  simp only [← verdict_eq_error_iff (proper_of_yields yields)]
  rcases verdict ending line with _ | (fault | bytes)
  · simp [ofVerdict]
  · simp [ofVerdict, ofResult, eq_comm]
  · simp [ofVerdict, ofResult]

theorem judged_of_yields [Lawful σ] {feed rest : σ} {line : List Token} {ending : Token}
    (yields : Yields feed line ending rest) : Judged feed line ending rest := by
  have proper := proper_of_yields yields
  refine ⟨⟨_, nextLine_eq yields⟩, ?_, ?_, ?_⟩
  · rw [nextLine_eq_iff yields, ← verdict_eq_none_iff proper]
    rcases verdict ending line with _ | (fault | bytes)
    · simp [ofVerdict]
    · simp [ofVerdict, ofResult]
    · simp [ofVerdict, ofResult]
  · intro bytes
    rw [nextLine_eq_iff yields, ← verdict_eq_ok_iff proper]
    rcases verdict ending line with _ | (fault | bytes)
    · simp [ofVerdict]
    · simp [ofVerdict, ofResult]
    · simp [ofVerdict, ofResult]
  · intro diagnostic
    rw [nextLine_eq_failure_iff yields, refusal_iff]
    constructor
    · rintro ⟨fault, rejected, made⟩
      obtain ⟨told, shown⟩ := Fault.eq_report_iff.mp made
      exact ⟨⟨fault, rejected, told⟩, by rw [told.span, shown]⟩
    · rintro ⟨⟨fault, rejected, told⟩, shown⟩
      rw [told.span] at shown
      exact ⟨fault, rejected, Fault.eq_report_iff.mpr ⟨told, shown⟩⟩

/-- A line compiles exactly if it is a statement by the grammar, and otherwise what is wrong first is
reported, whether the tokens come from a queue or from a scanner whose line ends. -/
theorem nextLine_judged :
    (∀ queue : Queue, ∃ ending rest,
      Yields queue (queue.tokens.takeWhile fun token => !token.isEndOfLine) ending rest ∧
      Judged queue (queue.tokens.takeWhile fun token => !token.isEndOfLine) ending rest) ∧
    ∀ (scanner rest : Scanner) (line : List Token) (ending : Token),
      Yields scanner line ending rest → Judged scanner line ending rest := by
  constructor
  · intro queue
    obtain ⟨ending, rest, yields⟩ := queue.yields_takeWhile
    exact ⟨ending, rest, yields, judged_of_yields yields⟩
  · intro scanner rest line ending yields
    exact judged_of_yields yields

theorem nextLine_judged_append :
    (∃ line ending last,
      Yields (Scanner.ofText ['>', '"', 'A', '"', ' ', '/', '/']) line ending last ∧
      nextLine (Scanner.ofText ['>', '"', 'A', '"', ' ', '/', '/']) =
        some (.code [0xf2, 0x7f, 0x41], last)) ∧
    ∃ line ending last, Yields (Scanner.ofText ['>', ',']) line ending last ∧
      nextLine (Scanner.ofText ['>', ',']) = some (.failure
        ⟨100, .grammar, "Text expected \",\" at 1:2", ⟨1, 2, 1, 2⟩, .ofList ['>', ',']⟩, last) := by
  constructor
  · have yields : ∃ ending last, Yields (Scanner.ofText ['>', '"', 'A', '"', ' ', '/', '/'])
        [⟨.append, ⟨1, 1, 1, 1⟩⟩, ⟨.text (.ofList ['A']), ⟨1, 2, 1, 4⟩⟩, ⟨.comment, ⟨1, 6, 1, 7⟩⟩]
        ending last := ⟨_, _, .token rfl rfl (.token rfl rfl (.token rfl rfl (.ending rfl rfl)))⟩
    obtain ⟨ending, last, yields⟩ := yields
    have coded : ByteCode.text .append ⟨.text (.ofList ['A']), ⟨1, 2, 1, 4⟩⟩ =
        .ok [0xf2, 0x7f, 0x41] := by cbv
    refine ⟨_, ending, last, yields, ?_⟩
    apply ((nextLine_judged.2 _ _ _ _ yields).code_iff _).mpr
    refine ⟨[_, _], [_], rfl, ?_, .inr ⟨_, _, rfl, rfl⟩⟩
    rw [← coded]
    exact .append rfl rfl
  · have yields : ∃ ending last, Yields (Scanner.ofText ['>', ','])
        [⟨.append, ⟨1, 1, 1, 1⟩⟩, ⟨.comma, ⟨1, 2, 1, 2⟩⟩] ending last ∧
        line? last 1 = some (.ofList ['>', ',']) :=
      ⟨_, _, .token rfl rfl (.token rfl rfl (.ending rfl rfl)), rfl⟩
    obtain ⟨ending, last, yields, shown⟩ := yields
    refine ⟨_, ending, last, yields, ?_⟩
    apply ((nextLine_judged.2 _ _ _ _ yields).failure_iff _).mpr
    refine ⟨.textMissing rfl (by simp) ⟨rfl, rfl, by cbv, rfl⟩, ?_⟩
    rw [shown]
    rfl

end Compiled

end Calculator
