import Mathlib
import Calculator.Token.Feed

/-! The line that a feed hands out next. -/

namespace Calculator

namespace TokenFeed

variable {σ : Type} [TokenFeed σ]

/-- The feed hands out the tokens of a line and then the line's end, and `rest` is the feed behind it. -/
inductive Yields : σ → List Token → Token → σ → Prop
  | ending {feed rest : σ} {token : Token} (step : next feed = (token, rest))
      (closes : token.isEndOfLine = true) : Yields feed [] token rest
  | token {feed middle rest : σ} {token ending : Token} {line : List Token}
      (step : next feed = (token, middle)) (inside : token.isEndOfLine = false)
      (tail : Yields middle line ending rest) : Yields feed (token :: line) ending rest

theorem Yields.isEndOfLine_ending {feed rest : σ} {line : List Token} {ending : Token}
    (yields : Yields feed line ending rest) : ending.isEndOfLine = true := by
  induction yields with
  | ending _ closes => exact closes
  | token _ _ _ ih => exact ih

theorem Yields.unique {feed rest other : σ} {line otherLine : List Token} {ending otherEnding : Token}
    (yields : Yields feed line ending rest) (again : Yields feed otherLine otherEnding other) :
    line = otherLine ∧ ending = otherEnding ∧ rest = other := by
  induction yields generalizing otherLine with
  | ending step closes =>
      cases again with
      | ending stepAgain _ =>
          rw [step] at stepAgain
          cases stepAgain
          exact ⟨rfl, rfl, rfl⟩
      | token stepAgain inside _ =>
          rw [step] at stepAgain
          cases stepAgain
          simp [closes] at inside
  | token step inside tail ih =>
      cases again with
      | ending stepAgain closes =>
          rw [step] at stepAgain
          cases stepAgain
          simp [closes] at inside
      | token stepAgain _ tailAgain =>
          rw [step] at stepAgain
          cases stepAgain
          obtain ⟨rfl, rfl, rfl⟩ := ih tailAgain
          exact ⟨rfl, rfl, rfl⟩

/-- Sizes tell whether a line ends: within a line that does, each token leaves less behind it. -/
class Lawful (σ : Type) [TokenFeed σ] : Prop where
  size_lt {feed middle rest : σ} {token ending : Token} {line : List Token} :
    next feed = (token, middle) → token.isEndOfLine = false →
      Yields middle line ending rest → size middle < size feed

theorem Yields.dropLine_eq [Lawful σ] {feed rest : σ} {line : List Token} {ending : Token}
    (yields : Yields feed line ending rest) : dropLine feed = some rest := by
  induction yields with
  | ending step closes =>
      rw [dropLine, step]
      simp [closes]
  | token step inside tail ih =>
      have smaller := Lawful.size_lt step inside tail
      rw [dropLine, step]
      simp [inside, smaller, ih]

theorem Yields.takeLine_eq [Lawful σ] {feed rest : σ} {line : List Token} {ending : Token}
    (yields : Yields feed line ending rest) : takeLine feed = some (line ++ [ending], rest) := by
  induction yields with
  | ending step closes =>
      rw [takeLine, step]
      simp [closes]
  | token step inside tail ih =>
      have smaller := Lawful.size_lt step inside tail
      rw [takeLine, step]
      simp [inside, smaller, ih]

theorem yields_of_takeLine {feed rest : σ} {tokens : List Token}
    (taken : takeLine feed = some (tokens, rest)) : ∃ line ending, Yields feed line ending rest := by
  fun_induction takeLine feed generalizing tokens with
  | case1 feed token behind step closes =>
      cases taken
      exact ⟨[], token, .ending step closes⟩
  | case2 feed token behind step inside smaller ih =>
      obtain ⟨⟨later, last⟩, found, whole⟩ := Option.map_eq_some_iff.mp taken
      cases whole
      obtain ⟨line, ending, tail⟩ := ih found
      exact ⟨token :: line, ending, .token step (by simpa using inside) tail⟩
  | case3 => cases taken

theorem yields_of_dropLine {feed rest : σ} (dropped : dropLine feed = some rest) :
    ∃ line ending, Yields feed line ending rest := by
  fun_induction dropLine feed with
  | case1 feed token behind step closes =>
      cases dropped
      exact ⟨[], token, .ending step closes⟩
  | case2 feed token behind step inside smaller ih =>
      obtain ⟨line, ending, tail⟩ := ih dropped
      exact ⟨token :: line, ending, .token step (by simpa using inside) tail⟩
  | case3 => cases dropped

end TokenFeed

namespace Token

namespace Queue

theorem yields_takeWhile (queue : Queue) :
    ∃ ending rest, TokenFeed.Yields queue
      (queue.tokens.takeWhile fun token => !token.isEndOfLine) ending rest := by
  obtain ⟨tokens, last⟩ := queue
  induction tokens generalizing last with
  | nil => exact ⟨_, _, .ending rfl rfl⟩
  | cons token tokens ih =>
      have step : TokenFeed.next (Queue.mk (token :: tokens) last) = (token, ⟨tokens, token.span⟩) := rfl
      cases kind : token.isEndOfLine with
      | true =>
          refine ⟨token, ⟨tokens, token.span⟩, ?_⟩
          simpa [kind] using TokenFeed.Yields.ending step kind
      | false =>
          obtain ⟨ending, rest, tail⟩ := ih token.span
          refine ⟨ending, rest, ?_⟩
          simpa [kind] using TokenFeed.Yields.token step kind tail

instance : TokenFeed.Lawful Queue where
  size_lt := by
    rintro ⟨tokens, last⟩ middle rest token ending line step inside _
    cases tokens with
    | nil =>
        simp only [TokenFeed.next, next, Prod.mk.injEq] at step
        simp [← step.1, isEndOfLine] at inside
    | cons first tokens =>
        simp only [TokenFeed.next, next, Prod.mk.injEq] at step
        simp [← step.2, TokenFeed.size]

theorem tokens_of_yields {queue rest : Queue} {line : List Token} {ending : Token}
    (yields : TokenFeed.Yields queue line ending rest) :
    rest.tokens = (queue.tokens.dropWhile fun token => !token.isEndOfLine).tail := by
  induction yields with
  | @ending queue rest token step closes =>
      obtain ⟨tokens, last⟩ := queue
      cases tokens with
      | nil =>
          cases step
          rfl
      | cons first tokens =>
          cases step
          simp [closes]
  | @token queue middle rest token ending line step inside tail ih =>
      obtain ⟨tokens, last⟩ := queue
      cases tokens with
      | nil =>
          cases step
          simp [isEndOfLine] at inside
      | cons first tokens =>
          cases step
          simpa [inside] using ih

end Queue

namespace LineFeed

variable {σ : Type} [TokenFeed σ]

inductive Holds : LineFeed σ → List Token → Token → σ → Prop
  | reading {feed rest : σ} {line : List Token} {ending : Token}
      (yields : TokenFeed.Yields feed line ending rest) : Holds ⟨feed, none⟩ line ending rest
  | closed {rest : σ} {ending : Token} : Holds ⟨rest, some ending⟩ [] ending rest

theorem Holds.next_eq {feed : LineFeed σ} {rest : σ} {line : List Token} {ending : Token}
    (holds : Holds feed line ending rest) :
    ∃ behind, TokenFeed.next feed = (line.headD ending, behind) ∧
      Holds behind line.tail ending rest := by
  cases holds with
  | closed => exact ⟨_, rfl, .closed⟩
  | reading yields =>
      cases yields with
      | ending step closes =>
          refine ⟨⟨rest, some ending⟩, ?_, .closed⟩
          simp [TokenFeed.next, next, step, closes]
      | token step inside tail =>
          refine ⟨⟨_, none⟩, ?_, .reading tail⟩
          simp [TokenFeed.next, next, step, inside]

theorem Holds.close_eq [TokenFeed.Lawful σ] {feed : LineFeed σ} {rest : σ} {line : List Token}
    {ending : Token} (holds : Holds feed line ending rest) : feed.close = some rest := by
  cases holds with
  | closed => rfl
  | reading yields => exact yields.dropLine_eq

theorem holds_of_close {feed : LineFeed σ} {rest : σ} (closed : feed.close = some rest) :
    ∃ line ending, Holds feed line ending rest := by
  obtain ⟨feed, ending⟩ := feed
  cases ending with
  | some token =>
      cases closed
      exact ⟨[], token, .closed⟩
  | none =>
      obtain ⟨line, ending, yields⟩ := TokenFeed.yields_of_dropLine closed
      exact ⟨line, ending, .reading yields⟩

theorem Holds.before_next {feed : LineFeed σ} {rest : σ} {line : List Token} {ending : Token}
    (holds : Holds (TokenFeed.next feed).2 line ending rest) :
    ∃ earlier, Holds feed earlier ending rest := by
  obtain ⟨feed, closing⟩ := feed
  cases closing with
  | some token => exact ⟨line, holds⟩
  | none =>
      cases closes : (TokenFeed.next feed).1.isEndOfLine with
      | true =>
          simp only [TokenFeed.next, next, closes, if_true] at holds
          cases holds
          exact ⟨[], .reading (.ending rfl closes)⟩
      | false =>
          simp only [TokenFeed.next, next, closes] at holds
          cases holds with
          | reading yields => exact ⟨_, .reading (.token rfl closes yields)⟩

end LineFeed

end Token

end Calculator
