import Mathlib
import Calculator.Scanner.Lexeme

/-! How far lexemes reach: each starts where it is read, stays on its line, and looks at nothing behind
the line. -/

namespace Calculator

def AtLineEnd (tail : List Char) : Prop := ∀ c, tail.head? = some c → c = '\n'

theorem takeWhile_append_lineEnd {p : Char → Bool} (stops : p '\n' = false) (text : List Char)
    {tail : List Char} (lineEnd : AtLineEnd tail) :
    (text ++ tail).takeWhile p = text.takeWhile p := by
  induction text with
  | nil =>
      cases tail with
      | nil => rfl
      | cons c rest => simp [lineEnd c rfl, stops]
  | cons c text ih => simp only [List.cons_append, List.takeWhile_cons, ih]

theorem takeWhile_of_single {text : List Char} (single : '\n' ∉ text) :
    text.takeWhile (· != '\n') = text := by
  apply List.takeWhile_eq_self_iff.mpr
  intro c member
  have other : c ≠ '\n' := by
    rintro rfl
    exact single member
  simpa using other

theorem dropWhile_append_lineEnd {p : Char → Bool} (stops : p '\n' = false) (text : List Char)
    {tail : List Char} (lineEnd : AtLineEnd tail) :
    (text ++ tail).dropWhile p = text.dropWhile p ++ tail := by
  induction text with
  | nil =>
      cases tail with
      | nil => rfl
      | cons c rest => simp [lineEnd c rfl, stops]
  | cons c text ih =>
      simp only [List.cons_append, List.dropWhile_cons, ih]
      split
      · rfl
      · rfl

def Token.Kind.ReadFrom (c : Char) (rest : List Char) : Token.Kind → Prop
  | .endOfLine => False
  | .comment => c = '/' ∧ rest.head? = some '/'
  | .number lexeme => isNumeral lexeme.toList = true
  | .text content => content.toList <+: rest
  | _ => True

namespace Lexeme

/-- The lexeme that starts at a character, by what the character announces. -/
theorem read_cases (first : Bool) (c : Char) (rest : List Char) :
    (c = '/' ∧ rest.head? = some '/' ∧
      read first c rest = ⟨(c :: rest).takeWhile (· != '\n'), .comment, none⟩) ∨
    (c = '"' ∧ read first c rest = ofQuoted rest) ∨
    (c = '>' ∧ read first c rest = ⟨[c], .append, none⟩) ∨
    (c = ',' ∧ read first c rest = ⟨[c], .comma, none⟩) ∨
    (c ≠ '"' ∧ c ≠ ',' ∧
      read first c rest = ofWord first ((c :: rest).takeWhile fun c => !endsWord c)) := by
  unfold read
  split
  · next comment => exact .inl ⟨comment.1, comment.2, rfl⟩
  · split
    · next quote => exact .inr (.inl ⟨quote, rfl⟩)
    · next noQuote =>
        split
        · next mark => exact .inr (.inr (.inl ⟨mark, rfl⟩))
        · split
          · next comma => exact .inr (.inr (.inr (.inl ⟨comma, rfl⟩)))
          · next noComma => exact .inr (.inr (.inr (.inr ⟨noQuote, noComma, rfl⟩)))

@[simp] theorem ofWord_text (first : Bool) (word : List Char) : (ofWord first word).text = word := by
  simp only [ofWord]
  repeat' split
  all_goals rfl

theorem ofQuoted_kind (text : List Char) :
    (ofQuoted text).kind = .text (.ofList (text.takeWhile fun c => c != '"' && c != '\n')) := by
  unfold ofQuoted
  split
  · rfl
  · rfl

theorem readFrom_ofWord (first : Bool) (word : List Char) (c : Char) (rest : List Char) :
    (ofWord first word).kind.ReadFrom c rest := by
  simp only [ofWord]
  split
  · next numeral =>
      rw [Bool.and_eq_true] at numeral
      simpa [Token.Kind.ReadFrom] using numeral.2
  · repeat' split
    all_goals trivial

theorem readFrom_read (first : Bool) (c : Char) (rest : List Char) :
    (read first c rest).kind.ReadFrom c rest := by
  rcases read_cases first c rest with ⟨slash, second, shape⟩ | ⟨_, shape⟩ | ⟨_, shape⟩ | ⟨_, shape⟩ |
    ⟨_, _, shape⟩
  · rw [shape]
    exact ⟨slash, second⟩
  · rw [shape, ofQuoted_kind, Token.Kind.ReadFrom, String.toList_ofList]
    exact List.takeWhile_prefix _
  · rw [shape]
    trivial
  · rw [shape]
    trivial
  · rw [shape]
    exact readFrom_ofWord first _ c rest

theorem ofQuoted_text (text : List Char) :
    ∃ closing, (ofQuoted text).text =
        '"' :: (text.takeWhile fun c => c != '"' && c != '\n') ++ closing ∧
      closing <+: (text.dropWhile fun c => c != '"' && c != '\n') ∧ closing <+: ['"'] := by
  unfold ofQuoted
  split
  · next rest closed => exact ⟨['"'], rfl, by rw [closed]; exact ⟨rest, rfl⟩, List.prefix_rfl⟩
  · exact ⟨[], by simp, List.nil_prefix, List.nil_prefix⟩

theorem read_text_prefix (first : Bool) (c : Char) (rest : List Char) :
    (read first c rest).text <+: c :: rest := by
  rcases read_cases first c rest with ⟨_, _, shape⟩ | ⟨rfl, shape⟩ | ⟨_, shape⟩ | ⟨_, shape⟩ |
    ⟨_, _, shape⟩
  · rw [shape]
    exact List.takeWhile_prefix _
  · obtain ⟨closing, covers, ⟨behind, dropped⟩, _⟩ := ofQuoted_text rest
    refine ⟨behind, ?_⟩
    rw [shape, covers, List.append_assoc, dropped, List.cons_append,
      List.takeWhile_append_dropWhile]
  · exact ⟨rest, by rw [shape]; rfl⟩
  · exact ⟨rest, by rw [shape]; rfl⟩
  · rw [shape, ofWord_text]
    exact List.takeWhile_prefix _

theorem read_text_eq_nil_iff (first : Bool) (c : Char) (rest : List Char) (inside : c ≠ '\n') :
    (read first c rest).text = [] ↔ isWhiteSpace c = true := by
  rcases read_cases first c rest with ⟨rfl, _, shape⟩ | ⟨rfl, shape⟩ | ⟨rfl, shape⟩ | ⟨rfl, shape⟩ |
    ⟨noQuote, noComma, shape⟩
  · simp [shape, isWhiteSpace]
  · obtain ⟨closing, covers, _⟩ := ofQuoted_text rest
    simp [shape, covers, isWhiteSpace]
  · simp [shape, isWhiteSpace]
  · simp [shape, isWhiteSpace]
  · rw [shape, ofWord_text, List.takeWhile_cons]
    simp [endsWord, noQuote, noComma]

theorem newline_not_mem_read_text (first : Bool) (c : Char) (rest : List Char) (inside : c ≠ '\n') :
    '\n' ∉ (read first c rest).text := by
  intro member
  rcases read_cases first c rest with ⟨_, _, shape⟩ | ⟨_, shape⟩ | ⟨_, shape⟩ | ⟨_, shape⟩ |
    ⟨_, _, shape⟩
  · rw [shape] at member
    simpa using List.mem_takeWhile_imp member
  · obtain ⟨closing, covers, _, quote⟩ := ofQuoted_text rest
    rw [shape, covers, List.mem_append, List.mem_cons] at member
    rcases member with (impossible | kept) | closes
    · exact absurd impossible (by decide)
    · simpa using List.mem_takeWhile_imp kept
    · simpa using quote.subset closes
  · simp [shape, Ne.symm inside] at member
  · simp [shape, Ne.symm inside] at member
  · rw [shape, ofWord_text] at member
    simpa [endsWord, isWhiteSpace] using List.mem_takeWhile_imp member

theorem ofQuoted_append {tail : List Char} (lineEnd : AtLineEnd tail) (text : List Char) :
    ofQuoted (text ++ tail) = ofQuoted text := by
  have stops : (fun c : Char => c != '"' && c != '\n') '\n' = false := by decide
  unfold ofQuoted
  rw [takeWhile_append_lineEnd stops text lineEnd, dropWhile_append_lineEnd stops text lineEnd]
  cases dropped : text.dropWhile fun c => c != '"' && c != '\n' with
  | cons c rest =>
      by_cases quote : c = '"'
      · simp [quote]
      · simp [quote]
  | nil =>
      cases tail with
      | nil => rfl
      | cons c rest => simp [lineEnd c rfl]

theorem read_append {tail : List Char} (lineEnd : AtLineEnd tail) (first : Bool) (c : Char)
    (rest : List Char) : read first c (rest ++ tail) = read first c rest := by
  have follower : (rest ++ tail).head? = some '/' ↔ rest.head? = some '/' := by
    cases rest with
    | nil =>
        simp only [List.nil_append, List.head?_nil, reduceCtorEq, iff_false]
        intro slash
        exact absurd (lineEnd _ slash) (by decide)
    | cons d rest => simp
  unfold read
  rw [ofQuoted_append lineEnd, ← List.cons_append,
    takeWhile_append_lineEnd (by decide) (c :: rest) lineEnd,
    takeWhile_append_lineEnd (by decide) (c :: rest) lineEnd]
  simp only [follower]

end Lexeme

end Calculator
