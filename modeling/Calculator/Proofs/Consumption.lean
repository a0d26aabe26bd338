import Calculator.Proofs.Statement

/-! What is left of a feed once a line has been compiled. -/

namespace Calculator.Compiled

open Statement Token TokenFeed

variable {σ : Type} [TokenFeed σ]

theorem holds_before_compile (statement : Statement) {feed : LineFeed σ} {rest : σ}
    {line : List Token} {ending : Token}
    (holds : LineFeed.Holds (statement.compile feed).2 line ending rest) :
    ∃ earlier, LineFeed.Holds feed earlier ending rest := by
  cases statement with
  | number token => exact ⟨line, holds⟩
  | text token => exact ⟨line, holds⟩
  | appendText => exact LineFeed.Holds.before_next holds

theorem holds_before_statement {first : Token} {feed : LineFeed σ} {rest : σ} {line : List Token}
    {ending : Token} (holds : LineFeed.Holds (statement first feed).2 line ending rest) :
    ∃ earlier, LineFeed.Holds feed earlier ending rest := by
  unfold statement at holds
  cases classified : ofToken first with
  | error fault =>
      simp only [classified] at holds
      exact ⟨line, holds⟩
  | ok found =>
      rcases compiled : found.compile feed with ⟨fault | bytes, behind⟩
      · simp only [classified, compiled] at holds
        exact holds_before_compile found (by rw [compiled]; exact holds)
      · simp only [classified, compiled] at holds
        obtain ⟨middle, between⟩ := LineFeed.Holds.before_next holds
        exact holds_before_compile found (by rw [compiled]; exact between)

theorem yields_of_nextLine {feed rest : σ} {compiled : Compiled}
    (answered : nextLine feed = some (compiled, rest)) : ∃ line ending, Yields feed line ending rest := by
  -- The tokens that were pulled can only have come from the line whose end was found.
  have pulled : ∃ line ending, LineFeed.Holds (LineFeed.next (.ofFeed feed)).2 line ending rest := by
    unfold nextLine at answered
    simp only at answered
    split at answered
    · obtain ⟨last, closed, same⟩ := Option.map_eq_some_iff.mp answered
      cases same
      exact LineFeed.holds_of_close closed
    · obtain ⟨last, closed, same⟩ := Option.map_eq_some_iff.mp answered
      cases same
      obtain ⟨line, ending, holds⟩ := LineFeed.holds_of_close closed
      obtain ⟨earlier, before⟩ := holds_before_statement holds
      exact ⟨earlier, ending, before⟩
  obtain ⟨line, ending, holds⟩ := pulled
  obtain ⟨earlier, whole⟩ := LineFeed.Holds.before_next holds
  cases whole with
  | reading yields => exact ⟨earlier, ending, yields⟩

theorem nextLine_rest_iff [Lawful σ] (feed rest : σ) :
    (∃ compiled, nextLine feed = some (compiled, rest)) ↔ ∃ line ending, Yields feed line ending rest := by
  constructor
  · rintro ⟨compiled, answered⟩
    exact yields_of_nextLine answered
  · rintro ⟨line, ending, yields⟩
    exact ⟨_, nextLine_eq yields⟩

theorem takeLine_rest_iff [Lawful σ] (feed rest : σ) :
    (∃ tokens, takeLine feed = some (tokens, rest)) ↔ ∃ line ending, Yields feed line ending rest := by
  constructor
  · rintro ⟨tokens, taken⟩
    exact yields_of_takeLine taken
  · rintro ⟨line, ending, yields⟩
    exact ⟨_, yields.takeLine_eq⟩

/-- Compiling a line consumes exactly that line, whatever it comes to: a scanner is left as it is by
handing out the tokens of the line, and of a queue the tokens behind the next end of line are left. -/
theorem nextLine_consumes_line :
    (∀ scanner rest : Scanner, (∃ compiled, nextLine scanner = some (compiled, rest)) ↔
      ∃ tokens, takeLine scanner = some (tokens, rest)) ∧
    ∀ queue : Queue, ∃ compiled rest, nextLine queue = some (compiled, rest) ∧
      rest.tokens = (queue.tokens.dropWhile fun token => !token.isEndOfLine).tail := by
  constructor
  · intro scanner rest
    rw [nextLine_rest_iff, takeLine_rest_iff]
  · intro queue
    obtain ⟨ending, rest, yields⟩ := queue.yields_takeWhile
    exact ⟨_, rest, nextLine_eq yields, Queue.tokens_of_yields yields⟩

end Calculator.Compiled
