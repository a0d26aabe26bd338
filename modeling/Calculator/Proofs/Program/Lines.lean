import Calculator.Program
import Calculator.Proofs.Listing
import Calculator.Proofs.Statement

/-! A program is compiled line by line, and each line by itself. -/

namespace Calculator

open Statement TokenFeed

def EndsLine (text : List Char) : Prop := text = [] ∨ text.getLast? = some '\n'

instance (text : List Char) : Decidable (EndsLine text) :=
  inferInstanceAs (Decidable (text = [] ∨ text.getLast? = some '\n'))

/-- The lines of a text that are compiled: all but an empty one behind the last line feed. -/
def statementLines (text : List Char) : List (List Char) :=
  if EndsLine text then (text.splitOn '\n').dropLast else text.splitOn '\n'

theorem endsLine_append (line rest : List Char) :
    EndsLine (line ++ '\n' :: rest) ↔ EndsLine rest := by
  cases rest with
  | nil => simp [EndsLine]
  | cons c rest => simp [EndsLine, List.getLast?_cons]

theorem statementLines_of_single (line : List Char) (single : '\n' ∉ line) (started : line ≠ []) :
    statementLines line = [line] := by
  have open_ : ¬EndsLine line := by
    rintro (empty | last)
    · exact started empty
    · exact single (List.mem_of_getLast? last)
  simp [statementLines, open_, List.splitOn_eq_singleton single]

theorem statementLines_append (line rest : List Char) (single : '\n' ∉ line) :
    statementLines (line ++ '\n' :: rest) = line :: statementLines rest := by
  have pieces : (line ++ '\n' :: rest).splitOn '\n' = line :: rest.splitOn '\n' :=
    List.splitOn_append_cons_self_of_not_mem single rest
  have more := List.splitOn_ne_nil '\n' rest
  simp only [statementLines, pieces, endsLine_append]
  split
  · exact List.dropLast_cons_of_ne_nil more
  · rfl

theorem statementLines_line (line tail : List Char) (single : '\n' ∉ line) (lineEnd : AtLineEnd tail)
    (started : line ++ tail ≠ []) : statementLines (line ++ tail) = line :: statementLines tail.tail := by
  cases tail with
  | nil =>
      rw [List.append_nil] at started ⊢
      exact statementLines_of_single line single started
  | cons c rest =>
      obtain rfl := lineEnd c rfl
      exact statementLines_append line rest single

theorem exists_line (text : List Char) :
    ∃ line tail, text = line ++ tail ∧ '\n' ∉ line ∧ AtLineEnd tail := by
  refine ⟨text.takeWhile (· != '\n'), text.dropWhile (· != '\n'),
    List.takeWhile_append_dropWhile.symm, ?_, ?_⟩
  · intro member
    simpa using List.mem_takeWhile_imp member
  · intro c head
    have stops := List.head?_dropWhile_not (· != '\n') text
    simpa [head] using stops

/-- What holds of a text if it holds of the part below its first line holds of every text. -/
theorem line_induction {motive : List Char → Prop}
    (step : ∀ line tail, '\n' ∉ line → AtLineEnd tail → (line ++ tail ≠ [] → motive tail.tail) →
      motive (line ++ tail)) (text : List Char) : motive text := by
  induction size : text.length using Nat.strongRecOn generalizing text with
  | ind length ih =>
      obtain ⟨line, tail, rfl, single, lineEnd⟩ := exists_line text
      apply step line tail single lineEnd
      intro started
      have positive := List.length_pos_iff.mpr started
      apply ih tail.tail.length ?_ tail.tail rfl
      rw [List.length_append] at size positive
      rw [List.length_tail]
      omega

theorem append_ne_nil_of_tail (line : List Char) {tail : List Char} (more : tail.tail ≠ []) :
    line ++ tail ≠ [] := by
  intro empty
  rw [(List.append_eq_nil_iff.mp empty).2] at more
  exact more rfl

theorem length_statementLines (text : List Char) :
    (statementLines text).length =
      (Listing.ofText text).lineCount - if EndsLine text then 1 else 0 := by
  simp only [statementLines, Listing.ofText, Listing.lineCount, List.length_map]
  split
  · simp
  · simp

theorem length_splitOn_le (text : List Char) : (text.splitOn '\n').length ≤ text.length + 1 := by
  rw [length_splitOn]
  exact Nat.succ_le_succ List.count_le_length

theorem getElem?_splitOn_of_statementLines {text line : List Char} {index : Nat}
    (found : (statementLines text)[index]? = some line) : (text.splitOn '\n')[index]? = some line := by
  unfold statementLines at found
  split at found
  · rw [List.getElem?_dropLast] at found
    split at found
    · exact found
    · cases found
  · exact found

theorem Listing.line?_ofText {text line : List Char} {index : Nat} (bound : text.length < 2 ^ 32 - 1)
    (found : (text.splitOn '\n')[index]? = some line) :
    (Listing.ofText text).line? (UInt32.ofNat (1 + index)) = some (dropReturn line) := by
  have inside : index < (text.splitOn '\n').length := (List.getElem?_eq_some_iff.mp found).1
  have lines := length_splitOn_le text
  have number : (UInt32.ofNat (1 + index)).toNat = index + 1 := by
    rw [UInt32.toNat_ofNat', Nat.mod_eq_of_lt (by omega), Nat.add_comm]
  simp only [line?, ofText, number, List.getElem?_map, found, Option.map_some]

namespace Scanner

theorem line?_ofText {text line : List Char} {index : Nat} (bound : text.length < 2 ^ 32 - 1)
    (found : (text.splitOn '\n')[index]? = some line) :
    (ofText text).line? (UInt32.ofNat (1 + index)) = some (.ofList (Listing.dropReturn line)) := by
  simp only [line?, ofText, Listing.line?_ofText bound found, Option.map_some]

def onLine (number : Nat) (line : List Char) : Scanner := ⟨⟨[]⟩, line, ⟨number, 1⟩, true, []⟩

theorem tokens_isSome_iff (scanner : Scanner) :
    scanner.tokens.isSome = true ↔
      (scanner.next.1.isEndOfLine = true ∧ scanner.next.2.atEnd = true) ∨
      (scanner.next.2.rest.length < scanner.rest.length ∧ scanner.next.2.tokens.isSome = true) := by
  rw [tokens]
  by_cases finished : scanner.next.1.isEndOfLine = true ∧ scanner.next.2.atEnd = true
  · simp [finished]
  · by_cases shorter : scanner.next.2.rest.length < scanner.rest.length
    · simp [finished, shorter]
    · simp [finished, shorter]

theorem exists_yields_of_tokens (scanner : Scanner) (ends : scanner.tokens.isSome = true) :
    ∃ line ending last, Yields scanner line ending last ∧
      (last.atEnd = true ∨ last.tokens.isSome = true) := by
  induction length : scanner.rest.length using Nat.strongRecOn generalizing scanner with
  | ind length ih =>
      by_cases closes : scanner.next.1.isEndOfLine = true
      · refine ⟨[], scanner.next.1, scanner.next.2, .ending rfl closes, ?_⟩
        exact ((tokens_isSome_iff scanner).mp ends).imp And.right And.right
      · rcases (tokens_isSome_iff scanner).mp ends with ⟨ended, _⟩ | ⟨shorter, later⟩
        · exact absurd ended closes
        · obtain ⟨line, ending, last, tail, onward⟩ := ih _ (by omega) scanner.next.2 later rfl
          exact ⟨scanner.next.1 :: line, ending, last, .token rfl (by simpa using closes) tail, onward⟩

end Scanner

namespace Compiled

theorem ofVerdict_of_listing {first second : Scanner} (same : first.listing = second.listing)
    (result : Option (Except Fault (List UInt8))) : ofVerdict first result = ofVerdict second result := by
  have lookup (number : UInt32) : line? first number = line? second number := by
    simp only [line?, Scanner.line?, same]
  rcases result with _ | (fault | bytes)
  · rfl
  · simp only [ofVerdict, ofResult, lookup]
  · rfl

def ofVerdictOn (text : List Char) : Option (Except Fault (List UInt8)) → Compiled
  | none => .nothing
  | some (.ok bytes) => .code bytes
  | some (.error fault) => .failure (fault.report (some (.ofList (Listing.dropReturn text))))

/-- The results of consecutive lines, each scanned by itself, with reports by the listing of `reporter`. -/
inductive OfLines (reporter : Scanner) : Nat → List (List Char) → List Compiled → Prop
  | nil {number : Nat} : OfLines reporter number [] []
  | cons {number : Nat} {text : List Char} {texts : List (List Char)} {line : List Token}
      {ending : Token} {last : Scanner} {results : List Compiled}
      (yields : Yields (Scanner.onLine number text) line ending last)
      (later : OfLines reporter (number + 1) texts results) :
      OfLines reporter number (text :: texts) (ofVerdict reporter (verdict ending line) :: results)

theorem OfLines.length_eq {reporter : Scanner} {number : Nat} {texts : List (List Char)}
    {results : List Compiled} (ofLines : OfLines reporter number texts results) :
    results.length = texts.length := by
  induction ofLines with
  | nil => rfl
  | cons _ _ ih => simp [ih]

theorem OfLines.getElem? {reporter : Scanner} {number : Nat} {texts : List (List Char)}
    {results : List Compiled} (ofLines : OfLines reporter number texts results) (index : Nat)
    (text : List Char) (found : texts[index]? = some text) :
    ∃ line ending last, Yields (Scanner.onLine (number + index) text) line ending last ∧
      results[index]? = some (ofVerdict reporter (verdict ending line)) := by
  induction ofLines generalizing index with
  | nil => simp at found
  | @cons number first texts line ending last results yields later ih =>
      cases index with
      | zero =>
          simp only [List.getElem?_cons_zero, Option.some.injEq] at found
          subst found
          exact ⟨line, ending, last, yields, rfl⟩
      | succ index =>
          obtain ⟨line, ending, last, yields, result⟩ := ih index (by simpa using found)
          refine ⟨line, ending, last, ?_, by simpa using result⟩
          rwa [Nat.add_assoc, Nat.add_comm 1 index] at yields

end Compiled

namespace Program

open Compiled

theorem nextLine_onLine (scanner : Scanner) (number : Nat) (text tail : List Char)
    (rest : scanner.rest = text ++ tail) (single : '\n' ∉ text) (lineEnd : AtLineEnd tail)
    (place : scanner.place = ⟨number, 1⟩) (start : scanner.lineStart = true)
    (ends : scanner.tokens.isSome = true) :
    ∃ line ending alone last, Yields (Scanner.onLine number text) line ending alone ∧
      nextLine scanner = some (ofVerdict last (verdict ending line), last) ∧
      (last.atEnd = true ∨ last.tokens.isSome = true) ∧ last.rest = tail.tail ∧
      (tail ≠ [] → last.place = ⟨number + 1, 1⟩) ∧ last.lineStart = true ∧
      last.listing = scanner.listing := by
  obtain ⟨line, ending, last, yields, onward⟩ := scanner.exists_yields_of_tokens ends
  -- The same line is handed out to a scanner that sees nothing else.
  have along : Scanner.Along tail scanner (Scanner.onLine number text) := ⟨rest, place, start⟩
  obtain ⟨⟨alone, apart⟩, behind, fresh, below⟩ := Scanner.Along.of_yields lineEnd yields along single
  exact ⟨line, ending, alone, last, apart, nextLine_eq yields, onward, behind, below, fresh,
    Scanner.listing_of_yields yields⟩

theorem compileFrom_ofLines (reporter scanner : Scanner) (number : Nat)
    (ends : scanner.atEnd = true ∨ scanner.tokens.isSome = true)
    (place : scanner.rest ≠ [] → scanner.place = ⟨number, 1⟩) (start : scanner.lineStart = true)
    (listing : scanner.listing = reporter.listing) :
    ∃ results last, compileFrom scanner = some (results, last) ∧
      OfLines reporter number (statementLines scanner.rest) results := by
  induction length : scanner.rest.length using Nat.strongRecOn generalizing scanner number with
  | ind length ih =>
      rw [compileFrom]
      by_cases finished : scanner.atEnd = true
      · have empty : scanner.rest = [] := by simpa [Scanner.atEnd] using finished
        refine ⟨[], scanner, by simp [finished], ?_⟩
        rw [empty]
        exact .nil
      · have more : scanner.rest ≠ [] := by simpa [Scanner.atEnd] using finished
        obtain ⟨text, tail, rest, single, lineEnd⟩ := exists_line scanner.rest
        obtain ⟨line, ending, alone, last, apart, compiled, onward, behind, below, fresh, same⟩ :=
          nextLine_onLine scanner number text tail rest single lineEnd (place more) start
            (ends.resolve_left finished)
        -- The line or its line end is behind, since something was left.
        have shorter : last.rest.length < scanner.rest.length := by
          have positive := List.length_pos_iff.mpr more
          rw [rest, List.length_append] at positive ⊢
          rw [behind, List.length_tail]
          omega
        obtain ⟨results, final, later, ofLines⟩ := ih last.rest.length (by omega) last (number + 1)
          onward (fun left => below (by rintro rfl; simp [behind] at left)) fresh
          (same.trans listing) rfl
        refine ⟨ofVerdict last (verdict ending line) :: results, final, ?_, ?_⟩
        · simp [finished, compiled, shorter, later]
        · rw [rest] at more ⊢
          rw [statementLines_line text tail single lineEnd more, ← behind,
            ofVerdict_of_listing (same.trans listing)]
          exact .cons apart ofLines

theorem compile_ofLines (text : List Char) (ends : (Scanner.ofText text).tokens.isSome = true) :
    ∃ results last, compile text = some (results, last) ∧
      OfLines (Scanner.ofText text) 1 (statementLines text) results :=
  compileFrom_ofLines (Scanner.ofText text) (Scanner.ofText text) 1 (.inr ends) (fun _ => rfl) rfl rfl

theorem ofVerdict_ofText {text line : List Char} {index : Nat} {tokens : List Token}
    {ending : Token} {last : Scanner} (bound : text.length < 2 ^ 32 - 1)
    (found : (text.splitOn '\n')[index]? = some line)
    (yields : Yields (Scanner.onLine (1 + index) line) tokens ending last) :
    ofVerdict (Scanner.ofText text) (verdict ending tokens) = ofVerdictOn line (verdict ending tokens) := by
  rcases outcome : verdict ending tokens with _ | (fault | bytes)
  · rfl
  · have rejected := (verdict_eq_error_iff (proper_of_yields yields) fault).mp outcome
    have places := Scanner.startLine_of_yields yields
    have number := rejected.startLine_eq places.1 places.2
    have quoted := Scanner.line?_ofText bound found
    have lookup : line? (Scanner.ofText text) fault.span.startLine =
        some (.ofList (Listing.dropReturn line)) := by
      rw [number]
      exact quoted
    simp only [ofVerdict, ofResult, ofVerdictOn, lookup]
  · rfl

theorem statement_at {text : List Char} {results : List Compiled} {final : Scanner} {index : Nat}
    (bound : text.length < 2 ^ 32 - 1) (ends : (Scanner.ofText text).tokens.isSome = true)
    (compiled : compile text = some (results, final)) (reached : index < results.length) :
    ∃ line tokens ending last, (statementLines text)[index]? = some line ∧
      Yields (Scanner.onLine (1 + index) line) tokens ending last ∧
      results[index]? = some (ofVerdictOn line (verdict ending tokens)) := by
  obtain ⟨same, _, again, ofLines⟩ := compile_ofLines text ends
  obtain ⟨rfl, rfl⟩ : results = same ∧ final = _ := by simpa [compiled] using again
  rw [ofLines.length_eq] at reached
  have found := List.getElem?_eq_getElem reached
  obtain ⟨tokens, ending, last, yields, result⟩ := ofLines.getElem? index _ found
  rw [ofVerdict_ofText bound (getElem?_splitOn_of_statementLines found) yields] at result
  exact ⟨_, tokens, ending, last, found, yields, result⟩

theorem result_at {text : List Char} {results : List Compiled} {final : Scanner} {index : Nat}
    (bound : text.length < 2 ^ 32 - 1) (ends : (Scanner.ofText text).tokens.isSome = true)
    (compiled : compile text = some (results, final)) (reached : index < results.length) :
    ∃ line tokens ending last, (text.splitOn '\n')[index]? = some line ∧
      Yields (Scanner.onLine (1 + index) line) tokens ending last ∧
      results[index]? = some (ofVerdictOn line (verdict ending tokens)) := by
  obtain ⟨line, tokens, ending, last, found, yields, result⟩ := statement_at bound ends compiled reached
  exact ⟨line, tokens, ending, last, getElem?_splitOn_of_statementLines found, yields, result⟩

/-- Lines are compiled one by one and each by itself: there are as many results as lines, less an empty
one at the end, and a result is the same wherever its line stands under the same number. -/
theorem compile_lines_independent :
    (∀ text : List Char, text.length < 2 ^ 32 - 1 → (Scanner.ofText text).tokens.isSome = true →
      ∃ results last, compile text = some (results, last) ∧
        results.length = (Listing.ofText text).lineCount -
          if text = [] ∨ text.getLast? = some '\n' then 1 else 0) ∧
    ∀ (first second : List Char) (firstResults secondResults : List Compiled)
      (firstLast secondLast : Scanner) (index : Nat),
      first.length < 2 ^ 32 - 1 → second.length < 2 ^ 32 - 1 →
      (Scanner.ofText first).tokens.isSome = true → (Scanner.ofText second).tokens.isSome = true →
      compile first = some (firstResults, firstLast) →
      compile second = some (secondResults, secondLast) →
      (first.splitOn '\n')[index]? = (second.splitOn '\n')[index]? →
      index < firstResults.length → index < secondResults.length →
      firstResults[index]? = secondResults[index]? := by
  constructor
  · intro text _ ends
    obtain ⟨results, last, compiled, ofLines⟩ := compile_ofLines text ends
    exact ⟨results, last, compiled, ofLines.length_eq.trans (length_statementLines text)⟩
  · intro first second firstResults secondResults firstLast secondLast index firstBound secondBound
      firstEnds secondEnds firstCompiled secondCompiled same firstReached secondReached
    obtain ⟨line, tokens, ending, _, piece, yields, result⟩ :=
      result_at firstBound firstEnds firstCompiled firstReached
    obtain ⟨otherLine, otherTokens, otherEnding, _, otherPiece, otherYields, otherResult⟩ :=
      result_at secondBound secondEnds secondCompiled secondReached
    obtain rfl : line = otherLine := by simpa [piece, otherPiece] using same
    obtain ⟨rfl, rfl, _⟩ := yields.unique otherYields
    rw [result, otherResult]

theorem compile_lines_independent_below_open_text :
    ∃ firstResults firstLast secondResults secondLast,
      compile ['"', '\n', '>', 'A'] = some (firstResults, firstLast) ∧
      compile ['\n', '>', 'A', '\n'] = some (secondResults, secondLast) ∧
      firstResults.length = 2 ∧ secondResults.length = 2 ∧ firstResults[1]? = secondResults[1]? := by
  have firstEnds : (Scanner.ofText ['"', '\n', '>', 'A']).tokens.isSome = true := by
    iterate 4 refine (Scanner.tokens_isSome_iff _).mpr (.inr ⟨by decide, ?_⟩)
    exact (Scanner.tokens_isSome_iff _).mpr (.inl ⟨by decide, by decide⟩)
  have secondEnds : (Scanner.ofText ['\n', '>', 'A', '\n']).tokens.isSome = true := by
    iterate 3 refine (Scanner.tokens_isSome_iff _).mpr (.inr ⟨by decide, ?_⟩)
    exact (Scanner.tokens_isSome_iff _).mpr (.inl ⟨by decide, by decide⟩)
  obtain ⟨firstResults, firstLast, firstCompiled, firstLength⟩ :=
    compile_lines_independent.1 _ (by decide) firstEnds
  obtain ⟨secondResults, secondLast, secondCompiled, secondLength⟩ :=
    compile_lines_independent.1 _ (by decide) secondEnds
  have firstCount : firstResults.length = 2 := firstLength.trans (by decide)
  have secondCount : secondResults.length = 2 := secondLength.trans (by decide)
  refine ⟨firstResults, firstLast, secondResults, secondLast, firstCompiled, secondCompiled, firstCount,
    secondCount, ?_⟩
  exact compile_lines_independent.2 _ _ _ _ _ _ 1 (by decide) (by decide) firstEnds secondEnds
    firstCompiled secondCompiled (by decide) (by omega) (by omega)

end Program

end Calculator
