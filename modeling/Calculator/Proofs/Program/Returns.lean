import Calculator.Proofs.Program.Scanned
import Calculator.Proofs.Program.Written

/-! Lines that end in a carriage return and a line feed, against lines that end in a line feed alone. A
blank at the end of a line goes unnoticed except inside a text literal that is still open there. -/

namespace Calculator

open Statement TokenFeed

def withReturns (text : List Char) : List Char :=
  text.flatMap fun c => if c = '\n' then ['\r', '\n'] else [c]

theorem withReturns_of_single (line : List Char) (single : '\n' ∉ line) : withReturns line = line := by
  induction line with
  | nil => rfl
  | cons c line ih =>
      simp only [List.mem_cons, not_or] at single
      have later := ih single.2
      simp only [withReturns] at later ⊢
      simp [Ne.symm single.1, later]

theorem withReturns_append (first second : List Char) :
    withReturns (first ++ second) = withReturns first ++ withReturns second := by
  simp [withReturns]

theorem exists_withReturns_line (line tail : List Char) (single : '\n' ∉ line) (lineEnd : AtLineEnd tail) :
    ∃ line' tail', withReturns (line ++ tail) = line' ++ tail' ∧ '\n' ∉ line' ∧ AtLineEnd tail' ∧
      tail'.tail = withReturns tail.tail ∧ line' = line ++ if tail = [] then [] else ['\r'] := by
  cases tail with
  | nil =>
      refine ⟨line, [], ?_, single, by simp [AtLineEnd], rfl, by simp⟩
      simpa using withReturns_of_single line single
  | cons c more =>
      obtain rfl := lineEnd c rfl
      refine ⟨line ++ ['\r'], '\n' :: withReturns more, ?_, by simp [single], ?_, rfl, by simp⟩
      · rw [withReturns_append, withReturns_of_single line single]
        simp [withReturns]
      · intro c head
        simpa using head.symm

namespace Lexeme

theorem takeWhile_append_stop {p : Char → Bool} {stop : Char} (stops : p stop = false)
    (text : List Char) : (text ++ [stop]).takeWhile p = text.takeWhile p := by
  induction text with
  | nil => simp [stops]
  | cons c text ih => simp only [List.cons_append, List.takeWhile_cons, ih]

theorem ofWord_flaw_ne (first : Bool) (word : List Char) :
    (ofWord first word).flaw ≠ some .unterminated := by
  simp only [ofWord]
  repeat' split
  all_goals simp

theorem ofQuoted_of_open {text : List Char} (quotable : Alpha.Quotable text) :
    ofQuoted text = ⟨'"' :: text, .text (.ofList text), some .unterminated⟩ := by
  have kept : ∀ c ∈ text, (c != '"' && c != '\n') = true := by
    intro c member
    have noQuote : c ≠ '"' := fun same => quotable.1 (same ▸ member)
    have noNewline : c ≠ '\n' := fun same => quotable.2 (same ▸ member)
    simp [noQuote, noNewline]
  simp [ofQuoted, List.takeWhile_eq_self_iff.mpr kept, List.dropWhile_eq_nil_iff.mpr kept]

/-- A lexeme in front of a carriage return that ends the line is the same lexeme, or it takes the rest
of the line with the carriage return, which changes its kind only if it is an open text. -/
inductive Returned (line : List Char) (plain returned : Lexeme) : Prop
  | same (equal : returned = plain) (closed : plain.flaw ≠ some .unterminated)
  | longer (text : plain.text = line) (returnedText : returned.text = line ++ ['\r'])
      (flaw : returned.flaw = plain.flaw)
      (kind : returned.kind = plain.kind ↔ plain.flaw ≠ some .unterminated)

theorem returned_ofQuoted (text : List Char) (single : '\n' ∉ text) :
    Returned ('"' :: text) (ofQuoted text) (ofQuoted (text ++ ['\r'])) := by
  by_cases quote : '"' ∈ text
  · obtain ⟨content, more, rfl, noQuote⟩ := List.eq_append_cons_of_mem quote
    have quotable : Alpha.Quotable content := ⟨noQuote, fun member => single (by simp [member])⟩
    rw [List.append_assoc, List.cons_append, ofQuoted_of_quotable quotable,
      ofQuoted_of_quotable quotable]
    exact .same rfl (by simp)
  · have quotable : Alpha.Quotable (text ++ ['\r']) := by
      constructor
      · simpa using quote
      · simpa using single
    rw [ofQuoted_of_open ⟨quote, single⟩, ofQuoted_of_open quotable]
    refine .longer rfl rfl rfl ?_
    simp

theorem returned_read (first : Bool) (c : Char) (rest : List Char) (single : '\n' ∉ c :: rest) :
    Returned (c :: rest) (read first c rest) (read first c (rest ++ ['\r'])) := by
  have follower : (rest ++ ['\r']).head? = some '/' ↔ rest.head? = some '/' := by
    cases rest with
    | nil => simp
    | cons d rest => simp
  unfold read
  simp only [follower, ← List.cons_append]
  by_cases comment : c = '/' ∧ rest.head? = some '/'
  · have kept : ∀ d ∈ c :: rest, (d != '\n') = true := by
      intro d member
      simpa using fun same : d = '\n' => single (same ▸ member)
    simp only [comment, if_true, and_self]
    rw [← comment.1]
    refine .longer (List.takeWhile_eq_self_iff.mpr kept) ?_ rfl (by simp)
    rw [List.takeWhile_append_of_pos kept]
    rfl
  · simp only [comment, if_false]
    by_cases quote : c = '"'
    · subst quote
      simp only [if_true]
      exact returned_ofQuoted rest fun member => single (by simp [member])
    · simp only [quote, if_false]
      rw [takeWhile_append_stop (by decide)]
      refine .same rfl ?_
      split
      · simp
      · split
        · simp
        · exact ofWord_flaw_ne first _

end Lexeme

namespace Lexes

theorem eq_nil_of_nil {first : Bool} {offset : Nat} {marks : List Mark}
    (lexes : Lexes first offset [] marks) : marks = [] := lexes.unique (.blank rfl)

/-- A carriage return at the end of a line changes none of its lexemes' flaws, and a kind only if there
is an open text on the line. -/
theorem exists_returned {first : Bool} {offset : Nat} {line : List Char} {marks : List Mark}
    (lexes : Lexes first offset line marks) (single : '\n' ∉ line) :
    ∃ returned, Lexes first offset (line ++ ['\r']) returned ∧
      returned.map (·.lexeme.flaw) = marks.map (·.lexeme.flaw) ∧
      (returned.map (·.lexeme.kind) = marks.map (·.lexeme.kind) ↔
        ∀ mark ∈ marks, mark.lexeme.flaw ≠ some .unterminated) := by
  induction lexes with
  | @blank first offset line empty =>
      have blank : (line ++ ['\r']).dropWhile isBlank = [] := by
        simp [List.dropWhile_append, empty, isBlank]
      exact ⟨[], .blank blank, rfl, by simp⟩
  | @lexeme first offset line rest c mark marks found dark here tail ih =>
      have suffix : c :: rest <:+ line := found ▸ List.dropWhile_suffix isBlank
      have inside : '\n' ∉ c :: rest := fun member => single (suffix.mem member)
      have foundReturn : (line ++ ['\r']).dropWhile isBlank = c :: (rest ++ ['\r']) := by
        simp [List.dropWhile_append, found]
      have skipped : (line ++ ['\r']).takeWhile isBlank = line.takeWhile isBlank := by
        have whole := length_takeWhile_add_length_dropWhile isBlank line
        rw [found, List.length_cons] at whole
        rw [List.takeWhile_append, if_neg (by omega)]
      have fits := (Lexeme.read_text_prefix first c rest).length_le
      cases Lexeme.returned_read first c rest inside with
      | same equal closed =>
          have behind : (c :: (rest ++ ['\r'])).drop mark.lexeme.text.length =
              (c :: rest).drop mark.lexeme.text.length ++ ['\r'] := by
            rw [here, ← List.cons_append, List.drop_append_of_le_length fits]
          obtain ⟨returned, later, flaws, kinds⟩ := ih fun member => inside (List.mem_of_mem_drop member)
          refine ⟨mark :: returned, .lexeme foundReturn dark ?_ ?_, by simp [flaws], ?_⟩
          · rw [skipped, equal]
            exact here
          · rw [behind]
            exact later
          · rw [here]
            simpa [closed] using kinds
      | longer text returnedText flaw kind =>
          have nothing : marks = [] := by
            rw [here, text, List.drop_length] at tail
            exact tail.eq_nil_of_nil
          refine ⟨[⟨_, .read first c (rest ++ ['\r'])⟩], .lexeme foundReturn dark rfl (.blank ?_), ?_, ?_⟩
          · simp [returnedText]
          · simp [nothing, here, flaw]
          · simpa [nothing, here] using kind

end Lexes

def endedLines (text : List Char) : List (List Char) := (text.splitOn '\n').dropLast

theorem forall_endedLines_line (line tail : List Char) (single : '\n' ∉ line)
    (lineEnd : AtLineEnd tail) (property : List Char → Prop) :
    (∀ ended ∈ endedLines (line ++ tail), property ended) ↔
      (tail ≠ [] → property line) ∧ ∀ ended ∈ endedLines tail.tail, property ended := by
  cases tail with
  | nil => simp [endedLines, List.splitOn_eq_singleton single]
  | cons c more =>
      obtain rfl := lineEnd c rfl
      have pieces : (line ++ '\n' :: more).splitOn '\n' = line :: more.splitOn '\n' :=
        List.splitOn_append_cons_self_of_not_mem single more
      have others := List.splitOn_ne_nil '\n' more
      simp [endedLines, pieces, List.dropLast_cons_of_ne_nil others]

theorem Mark.codes_reports (listing : Listing) (number : Nat) (marks : List Mark) :
    (marks.flatMap (·.reports listing number)).map (·.code) =
      (marks.map (·.lexeme.flaw)).flatMap fun flaw => (flaw.map Flaw.code).toList := by
  induction marks with
  | nil => rfl
  | cons mark marks ih => simp [codes_of_reports, ih]

/-- Scanned by itself, the line is reported for a text literal without its closing quote. -/
def HoldsOpenText (line : List Char) : Prop :=
  ∃ tokens last, (Scanner.ofText line).tokens = some (tokens, last) ∧ 101 ∈ last.diagnostics.map (·.code)

theorem Lexes.not_holdsOpenText_iff {line : List Char} {marks : List Mark}
    (lexes : Lexes true 0 line marks) (single : '\n' ∉ line) :
    ¬HoldsOpenText line ↔ ∀ mark ∈ marks, mark.lexeme.flaw ≠ some .unterminated := by
  have alone : tokenLines line = [line] := by
    simpa using tokenLines_line line [] single (by simp [AtLineEnd])
  have nothing : Scanner.Scanned (.ofText line) 2 [] [] [] := .nil
  have scanned := Scanner.Scanned.cons lexes nothing
  rw [← alone] at scanned
  obtain ⟨last, ends, collected⟩ := (Scanner.tokens_ofText_iff line _ _).mpr scanned
  have reported : HoldsOpenText line ↔ 101 ∈ last.diagnostics.map (·.code) := by
    simp [HoldsOpenText, ends]
  have open_iff (flaw : Option Flaw) :
      101 ∈ (flaw.map Flaw.code).toList ↔ flaw = some .unterminated := by
    rcases flaw with _ | (_ | _)
    · simp
    · simp [Flaw.code]
    · simp [Flaw.code]
  rw [reported, collected, List.append_nil, Mark.codes_reports]
  simp only [List.mem_flatMap, List.mem_map, open_iff]
  simp

theorem Lexes.exists_returned_line {line : List Char} {marks : List Mark}
    (lexes : Lexes true 0 line marks) (single : '\n' ∉ line) (tail : List Char) :
    ∃ returned, Lexes true 0 (line ++ if tail = [] then [] else ['\r']) returned ∧
      returned.map (·.lexeme.flaw) = marks.map (·.lexeme.flaw) ∧
      (returned.map (·.lexeme.kind) = marks.map (·.lexeme.kind) ↔
        (tail ≠ [] → ¬HoldsOpenText line)) := by
  by_cases last : tail = []
  · exact ⟨marks, by simpa [last] using lexes, rfl, by simp [last]⟩
  · obtain ⟨returned, later, flaws, kinds⟩ := lexes.exists_returned single
    refine ⟨returned, by simpa [last] using later, flaws, ?_⟩
    rw [kinds, lexes.not_holdsOpenText_iff single]
    simp [last]

theorem withReturns_eq_nil_iff (text : List Char) : withReturns text = [] ↔ text = [] := by
  cases text with
  | nil => simp [withReturns]
  | cons c text =>
      by_cases newline : c = '\n'
      · simp [withReturns, newline]
      · simp [withReturns, newline]

namespace Scanner

/-- Behind a carriage return at the end of each line the same is reported, and the same kinds of token
are handed out unless an open text takes in the carriage return. -/
theorem Scanned.exists_withReturns {listing : Listing} {number : Nat} {text : List Char}
    {tokens : List Token} {reports : List Diagnostic}
    (scanned : Scanned listing number (tokenLines text) tokens reports) (other : Listing) :
    ∃ returned returnedReports,
      Scanned other number (tokenLines (withReturns text)) returned returnedReports ∧
      returnedReports.map (·.code) = reports.map (·.code) ∧
      (returned.map (·.kind) = tokens.map (·.kind) ↔ ∀ line ∈ endedLines text, ¬HoldsOpenText line) := by
  induction text using line_induction generalizing number tokens reports with
  | step line tail single lineEnd ih =>
      obtain ⟨line', tail', split, single', lineEnd', behind, same⟩ :=
        exists_withReturns_line line tail single lineEnd
      rw [tokenLines_line line tail single lineEnd] at scanned
      rw [split, tokenLines_line line' tail' single' lineEnd', behind]
      cases scanned with
      | @cons _ _ _ marks tokens reports lexes later =>
          obtain ⟨returned, lexesReturn, flaws, kinds⟩ := lexes.exists_returned_line single tail
          rw [← same] at lexesReturn
          have rest : ∃ more moreReports,
              Scanned other (number + 1)
                (if withReturns tail.tail = [] then [] else tokenLines (withReturns tail.tail)) more
                moreReports ∧
              moreReports.map (·.code) = reports.map (·.code) ∧
              (more.map (·.kind) = tokens.map (·.kind) ↔
                ∀ line ∈ endedLines tail.tail, ¬HoldsOpenText line) := by
            by_cases finished : tail.tail = []
            · rw [if_pos finished] at later
              cases later
              exact ⟨[], [], by simpa [finished, withReturns] using Scanned.nil, rfl,
                by simp [finished, endedLines]⟩
            · rw [if_neg finished] at later
              rw [if_neg (mt (withReturns_eq_nil_iff _).mp finished)]
              exact ih (append_ne_nil_of_tail line finished) later
          obtain ⟨more, moreReports, onward, codes, kindsLater⟩ := rest
          refine ⟨_, _, .cons lexesReturn onward, ?_, ?_⟩
          · rw [List.map_append, List.map_append, Mark.codes_reports, Mark.codes_reports, flaws, codes]
          · rw [forall_endedLines_line line tail single lineEnd, ← kinds, ← kindsLater]
            have lengths : (returned.map (·.lexeme.kind)).length = (marks.map (·.lexeme.kind)).length := by
              simpa using congrArg List.length flaws
            rw [kinds_line, kinds_line]
            constructor
            · intro equal
              obtain ⟨heads, tails⟩ := List.append_inj equal lengths
              exact ⟨heads, (List.cons.inj tails).2⟩
            · rintro ⟨heads, tails⟩
              rw [heads, tails]

end Scanner

namespace ByteCode

theorem number_code_congr {first second : Token} (same : first.kind = second.kind) :
    (number first).mapError Fault.code = (number second).mapError Fault.code := by
  unfold number
  rw [same]
  split
  · split
    · rfl
    · rfl
  · rfl

theorem text_code_congr (placement : Placement) {first second : Token}
    (same : first.kind = second.kind) :
    (text placement first).mapError Fault.code = (text placement second).mapError Fault.code := by
  unfold text
  rw [same]
  split
  · split
    · rfl
    · rfl
    · rfl
  · rfl

end ByteCode

namespace Compiled

/-- What a line comes to, places and wording left aside. -/
def essence : Compiled → Option (Except UInt16 (List UInt8))
  | nothing => none
  | code bytes => some (.ok bytes)
  | failure diagnostic => some (.error diagnostic.code)

theorem essence_ofVerdict {σ : Type} [TokenFeed σ] (feed : σ)
    (verdict : Option (Except Fault (List UInt8))) :
    (ofVerdict feed verdict).essence = verdict.map (·.mapError Fault.code) := by
  rcases verdict with _ | (fault | bytes)
  · rfl
  · rfl
  · rfl

theorem kind_headD_congr {line other : List Token} {ending otherEnding : Token}
    (kinds : line.map (·.kind) = other.map (·.kind)) (ends : ending.kind = otherEnding.kind) :
    (line.headD ending).kind = (other.headD otherEnding).kind := by
  cases line with
  | nil =>
      cases other with
      | nil => exact ends
      | cons token other => simp at kinds
  | cons token line =>
      cases other with
      | nil => simp at kinds
      | cons _ other => exact (List.cons.inj kinds).1

theorem literal_code_congr {first second : Token} {tail other : List Token}
    {ending otherEnding : Token} (same : first.kind = second.kind)
    (kinds : tail.map (·.kind) = other.map (·.kind)) (ends : ending.kind = otherEnding.kind) :
    (literal first tail ending).1.mapError Fault.code =
        (literal second other otherEnding).1.mapError Fault.code ∧
      (literal first tail ending).2.map (·.kind) = (literal second other otherEnding).2.map (·.kind) := by
  unfold literal
  rw [← same]
  split
  · exact ⟨ByteCode.number_code_congr same, kinds⟩
  · exact ⟨ByteCode.text_code_congr .replace same, kinds⟩
  · refine ⟨ByteCode.text_code_congr .append (kind_headD_congr kinds ends), ?_⟩
    rw [List.map_tail, List.map_tail, kinds]
  · exact ⟨rfl, kinds⟩

theorem outcome_code_congr {first second : Token} {tail other : List Token}
    {ending otherEnding : Token} (same : first.kind = second.kind)
    (kinds : tail.map (·.kind) = other.map (·.kind)) (ends : ending.kind = otherEnding.kind) :
    (outcome first tail ending).mapError Fault.code =
      (outcome second other otherEnding).mapError Fault.code := by
  obtain ⟨results, left⟩ := literal_code_congr same kinds ends
  unfold outcome
  generalize literal first tail ending = spoken at results left ⊢
  generalize literal second other otherEnding = otherSpoken at results left ⊢
  rcases spoken with ⟨fault | bytes, behind⟩
  · rcases otherSpoken with ⟨otherFault | otherBytes, otherBehind⟩
    · exact results
    · cases results
  · rcases otherSpoken with ⟨otherFault | otherBytes, otherBehind⟩
    · cases results
    · obtain rfl : bytes = otherBytes := Except.ok.inj results
      simp only [kind_headD_congr left ends]
      split
      · rfl
      · rfl

/-- What a line comes to is decided by the kinds of its tokens, but for places and wording. -/
theorem verdict_code_congr {line other : List Token} {ending otherEnding : Token}
    (kinds : line.map (·.kind) = other.map (·.kind)) (ends : ending.kind = otherEnding.kind) :
    (verdict ending line).map (·.mapError Fault.code) =
      (verdict otherEnding other).map (·.mapError Fault.code) := by
  cases line with
  | nil =>
      cases other with
      | nil => rfl
      | cons second other => simp at kinds
  | cons first line =>
      cases other with
      | nil => simp at kinds
      | cons second other =>
          obtain ⟨same, later⟩ := List.cons.inj kinds
          simp only [verdict, same]
          split
          · rfl
          · exact congrArg some (outcome_code_congr same later ends)

theorem OfLines.essence_withReturns {reporter other : Scanner} {number : Nat} {text : List Char}
    {results returned : List Compiled} (plain : OfLines reporter number (statementLines text) results)
    (behind : OfLines other number (statementLines (withReturns text)) returned)
    (closed : ∀ line ∈ endedLines text, ¬HoldsOpenText line) :
    returned.map essence = results.map essence := by
  induction text using line_induction generalizing number results returned with
  | step line tail single lineEnd ih =>
      by_cases empty : line ++ tail = []
      · rw [empty] at plain behind
        cases plain
        cases behind
        rfl
      · obtain ⟨line', tail', split, single', lineEnd', left, same⟩ :=
          exists_withReturns_line line tail single lineEnd
        have more : line' ++ tail' ≠ [] := split ▸ mt (withReturns_eq_nil_iff _).mp empty
        rw [statementLines_line line tail single lineEnd empty] at plain
        rw [split, statementLines_line line' tail' single' lineEnd' more, left] at behind
        rw [forall_endedLines_line line tail single lineEnd] at closed
        cases plain with
        | @cons _ _ _ tokens ending last results yields later =>
            cases behind with
            | @cons _ _ _ tokens' ending' last' returned yields' later' =>
                have on := Scanner.onLine_on number single
                have on' := Scanner.onLine_on number single'
                obtain ⟨marks, lexes, rfl, rfl, _⟩ := (Scanner.yields_iff_lexes on _ _ _).mp yields
                obtain ⟨marks', lexes', rfl, rfl, _⟩ := (Scanner.yields_iff_lexes on' _ _ _).mp yields'
                obtain ⟨again, lexesAgain, _, kinds⟩ := lexes.exists_returned_line single tail
                rw [← same] at lexesAgain
                obtain rfl := lexes'.unique lexesAgain
                have tails := ih empty later later' closed.2
                have heads : (verdict (lineEnding number (0 + line'.length))
                      (marks'.map (·.token number))).map (·.mapError Fault.code) =
                    (verdict (lineEnding number (0 + line.length))
                      (marks.map (·.token number))).map (·.mapError Fault.code) := by
                  apply verdict_code_congr
                  · simpa [Mark.token, Function.comp_def] using kinds.mpr closed.1
                  · rfl
                rw [List.map_cons, List.map_cons, essence_ofVerdict, essence_ofVerdict, heads, tails]

end Compiled

namespace Program

open Compiled

/-- Two texts give the same kinds of token and the same codes of reports, and their lines compile alike
but for places and wording. -/
structure SameMeaning (first second : List Char) : Prop where
  scanned : ∃ tokens last others otherLast, (Scanner.ofText first).tokens = some (tokens, last) ∧
    (Scanner.ofText second).tokens = some (others, otherLast) ∧
    tokens.map (·.kind) = others.map (·.kind) ∧
    last.diagnostics.map (·.code) = otherLast.diagnostics.map (·.code)
  compiled : ∃ results last others otherLast, compile first = some (results, last) ∧
    compile second = some (others, otherLast) ∧ results.map essence = others.map essence

/-- A program means the same with a carriage return in front of each line feed, unless a line that a line
feed ends holds an open text. -/
theorem sameMeaning_withReturns_iff (text : List Char)
    (ends : (Scanner.ofText text).tokens.isSome = true) :
    SameMeaning text (withReturns text) ↔ ∀ line ∈ endedLines text, ¬HoldsOpenText line := by
  obtain ⟨⟨tokens, last⟩, found⟩ := Option.isSome_iff_exists.mp ends
  have scanned := (Scanner.tokens_ofText_iff text tokens last.diagnostics).mp ⟨last, found, rfl⟩
  obtain ⟨returned, reports, behind, codes, kinds⟩ := scanned.exists_withReturns (.ofText (withReturns text))
  obtain ⟨returnedLast, returnedFound, collected⟩ := (Scanner.tokens_ofText_iff _ _ _).mpr behind
  constructor
  · rintro ⟨⟨tokensAgain, lastAgain, others, otherLast, again, otherFound, same, _⟩, _⟩
    rw [found] at again
    rw [returnedFound] at otherFound
    cases again
    cases otherFound
    exact kinds.mp same.symm
  · intro closed
    refine ⟨⟨tokens, last, returned, returnedLast, found, returnedFound, (kinds.mpr closed).symm, ?_⟩, ?_⟩
    · rw [collected, codes]
    · obtain ⟨results, final, compiled, ofLines⟩ := compile_ofLines text ends
      obtain ⟨others, otherFinal, otherCompiled, otherLines⟩ :=
        compile_ofLines (withReturns text) (by simp [returnedFound])
      exact ⟨results, final, others, otherFinal, compiled, otherCompiled,
        (ofLines.essence_withReturns otherLines closed).symm⟩

theorem sameMeaning_withReturns_open_at_end :
    (Scanner.ofText ['"', 'A', '"', '\n', '"', 'B']).tokens.isSome = true ∧
      SameMeaning ['"', 'A', '"', '\n', '"', 'B'] ['"', 'A', '"', '\r', '\n', '"', 'B'] := by
  have ends : (Scanner.ofText ['"', 'A', '"', '\n', '"', 'B']).tokens.isSome = true := by
    iterate 3 refine (Scanner.tokens_isSome_iff _).mpr (.inr ⟨by decide, ?_⟩)
    exact (Scanner.tokens_isSome_iff _).mpr (.inl ⟨by decide, by decide⟩)
  have lexes : Lexes true 0 ['"', 'A', '"'] [⟨0, ⟨['"', 'A', '"'], .text (.ofList ['A']), none⟩⟩] :=
    .lexeme rfl rfl rfl (.blank rfl)
  have closed : ¬HoldsOpenText ['"', 'A', '"'] := (lexes.not_holdsOpenText_iff (by decide)).mpr (by simp)
  refine ⟨ends, (sameMeaning_withReturns_iff _ ends).mpr ?_⟩
  intro line member
  obtain rfl : line = ['"', 'A', '"'] := List.mem_singleton.mp member
  exact closed

theorem not_sameMeaning_withReturns_open_text :
    '\r' ∉ ['"', 'A', '\n'] ∧ (Scanner.ofText ['"', 'A', '\n']).tokens.isSome = true ∧
      withReturns ['"', 'A', '\n'] = ['"', 'A', '\r', '\n'] ∧
      ¬SameMeaning ['"', 'A', '\n'] ['"', 'A', '\r', '\n'] := by
  have plain : Lexes true 0 ['"', 'A'] [⟨0, ⟨['"', 'A'], .text (.ofList ['A']), some .unterminated⟩⟩] :=
    .lexeme rfl rfl rfl (.blank rfl)
  have returned : Lexes true 0 ['"', 'A', '\r']
      [⟨0, ⟨['"', 'A', '\r'], .text (.ofList ['A', '\r']), some .unterminated⟩⟩] :=
    .lexeme rfl rfl rfl (.blank rfl)
  obtain ⟨last, found, _⟩ :=
    (Scanner.tokens_ofText_iff ['"', 'A', '\n'] _ _).mpr (.cons plain .nil)
  obtain ⟨otherLast, otherFound, _⟩ :=
    (Scanner.tokens_ofText_iff ['"', 'A', '\r', '\n'] _ _).mpr (.cons returned .nil)
  refine ⟨by decide, by simp [found], rfl, ?_⟩
  rintro ⟨⟨tokens, _, others, _, again, otherAgain, same, _⟩, _⟩
  rw [found] at again
  rw [otherFound] at otherAgain
  cases again
  cases otherAgain
  rw [Scanner.kinds_line, Scanner.kinds_line] at same
  simp at same

end Program

end Calculator
