import Calculator.Proofs.Consumption
import Calculator.Proofs.Program.Scanned

/-! When a scanner gets on. Each token takes it past a character, unless it stands in front of white space
that is no blank and no line end, and there it stays. -/

namespace Calculator

open TokenFeed

/-- The Unicode property White_Space. -/
def WhiteSpace (c : Char) : Prop :=
  c.toNat ∈ [0x09, 0x0a, 0x0b, 0x0c, 0x0d, 0x20, 0x85, 0xa0, 0x1680, 0x2000, 0x2001, 0x2002, 0x2003, 0x2004,
    0x2005, 0x2006, 0x2007, 0x2008, 0x2009, 0x200a, 0x2028, 0x2029, 0x202f, 0x205f, 0x3000]

instance (c : Char) : Decidable (WhiteSpace c) := inferInstanceAs (Decidable (_ ∈ _))

theorem isWhiteSpace_iff (c : Char) : isWhiteSpace c = true ↔ WhiteSpace c := by
  simp only [isWhiteSpace, WhiteSpace, Bool.or_eq_true, Bool.and_eq_true, decide_eq_true_eq, beq_iff_eq,
    List.mem_cons, List.not_mem_nil, or_false]
  omega

theorem isBlank_iff (c : Char) : isBlank c = true ↔ c ∈ [' ', '\t', '\r'] := by
  simp [isBlank, or_assoc]

theorem Lexeme.read_of_white {c : Char} (white : isWhiteSpace c = true) (first : Bool) (rest : List Char) :
    read first c rest = ⟨[], .identifier "", none⟩ := by
  rcases read_cases first c rest with ⟨rfl, _⟩ | ⟨rfl, _⟩ | ⟨rfl, _⟩ | ⟨rfl, _⟩ | ⟨_, _, shape⟩
  · simp [isWhiteSpace] at white
  · simp [isWhiteSpace] at white
  · simp [isWhiteSpace] at white
  · simp [isWhiteSpace] at white
  · have empty : (c :: rest).takeWhile (fun c => !endsWord c) = [] := by simp [endsWord, white]
    rw [shape, empty]
    cases first with
    | false => rfl
    | true => rfl

namespace Scanner

def after (scanner : Scanner) (count : Nat) : Scanner := (fun scanner => scanner.next.2)^[count] scanner

theorem after_succ (scanner : Scanner) (count : Nat) :
    scanner.after (count + 1) = scanner.next.2.after count := rfl

theorem after_succ_eq (scanner : Scanner) (count : Nat) :
    scanner.after (count + 1) = (scanner.after count).next.2 := Function.iterate_succ_apply' ..

theorem next_of_white (scanner : Scanner) (c : Char) (rest : List Char)
    (found : scanner.rest.dropWhile isBlank = c :: rest) (inside : c ≠ '\n')
    (white : isWhiteSpace c = true) :
    scanner.next = (⟨.identifier "", scanner.tokenPlace.spanTo scanner.tokenPlace⟩,
      { scanner with rest := c :: rest, place := scanner.tokenPlace, lineStart := false }) := by
  rw [next_of_lexeme scanner c rest found inside, Lexeme.read_of_white white]
  simp [take, faultOf, Place.afterText]

theorem next_next_of_white (scanner : Scanner) (c : Char) (rest : List Char)
    (found : scanner.rest.dropWhile isBlank = c :: rest) (inside : c ≠ '\n')
    (white : isWhiteSpace c = true) : scanner.next.2.next = scanner.next := by
  have notBlank : isBlank c = false := by
    have stops := List.head?_dropWhile_not isBlank scanner.rest
    simpa [found] using stops
  rw [next_of_white scanner c rest found inside white,
    next_of_white _ c rest (by simp [notBlank]) inside white]
  simp [tokenPlace, notBlank, Place.afterText]

theorem Stalled.after {scanner : Scanner} (stalled : Stalled scanner) (count : Nat) :
    Stalled (scanner.after count) := by
  induction count generalizing scanner with
  | zero => exact stalled
  | succ count ih => exact ih stalled.next.2

theorem next_rest_suffix_behind (scanner : Scanner) (c : Char) (rest : List Char)
    (found : scanner.rest.dropWhile isBlank = c :: rest)
    (passable : c = '\n' ∨ isWhiteSpace c = false) : scanner.next.2.rest <:+ rest := by
  by_cases newline : c = '\n'
  · rw [newline] at found
    rw [next_of_newline scanner rest found]
  · have dark : ¬isWhiteSpace c = true := by simpa using passable.resolve_left newline
    have covers := mt (Lexeme.read_text_eq_nil_iff scanner.lineStart c rest newline).mp dark
    obtain ⟨d, text, shape⟩ := List.exists_cons_of_ne_nil covers
    rw [next_of_lexeme scanner c rest found newline]
    simp only [take, shape, List.length_cons, List.drop_succ_cons]
    exact List.drop_suffix _ _

structure Meets (scanner : Scanner) (c : Char) (rest : List Char) : Prop where
  ahead : ∃ blanks, scanner.rest = blanks ++ c :: rest ∧ ∀ blank ∈ blanks, blank ∈ [' ', '\t', '\r']
  other : c ∉ [' ', '\t', '\r']

theorem meets_iff {scanner : Scanner} {c : Char} {rest : List Char} :
    scanner.Meets c rest ↔ scanner.rest.dropWhile isBlank = c :: rest := by
  constructor
  · rintro ⟨⟨blanks, split, white⟩, other⟩
    have notBlank : ¬isBlank c = true := mt (isBlank_iff c).mp other
    rw [split, List.dropWhile_append_of_pos fun blank member => (isBlank_iff blank).mpr (white blank member)]
    simp [notBlank]
  · intro found
    refine ⟨⟨scanner.rest.takeWhile isBlank, ?_, ?_⟩, ?_⟩
    · rw [← found, List.takeWhile_append_dropWhile]
    · intro blank member
      exact (isBlank_iff blank).mp (List.mem_takeWhile_imp member)
    · have stops := List.head?_dropWhile_not isBlank scanner.rest
      rw [← isBlank_iff]
      simpa [found] using stops

/-- What becomes of a call for the next token, by the first character that is no blank. -/
structure Advances (scanner : Scanner) : Prop where
  ending : (∀ c ∈ scanner.rest, c ∈ [' ', '\t', '\r']) →
    scanner.next.1.kind = .endOfLine ∧ scanner.next.2.rest = []
  passing : ∀ c rest, scanner.Meets c rest → c = '\n' ∨ ¬WhiteSpace c → scanner.next.2.rest <:+ rest
  staying : ∀ c rest, scanner.Meets c rest → c ≠ '\n' → WhiteSpace c →
    scanner.next.1.kind = .identifier "" ∧ scanner.next.2.rest = c :: rest ∧
      ∀ count, (scanner.after (count + 1)).next = scanner.next

theorem advances (scanner : Scanner) : Advances scanner := by
  refine ⟨?_, ?_, ?_⟩
  · intro blank
    have closes : scanner.rest.dropWhile isBlank = [] :=
      List.dropWhile_eq_nil_iff.mpr fun c member => (isBlank_iff c).mpr (blank c member)
    rw [next_of_end scanner closes]
    exact ⟨rfl, rfl⟩
  · intro c rest meets passable
    rw [← isWhiteSpace_iff, Bool.not_eq_true] at passable
    exact next_rest_suffix_behind scanner c rest (meets_iff.mp meets) passable
  · intro c rest meets inside space
    have found := meets_iff.mp meets
    have white := (isWhiteSpace_iff c).mpr space
    have again := next_next_of_white scanner c rest found inside white
    refine ⟨?_, ?_, ?_⟩
    · rw [next_of_white scanner c rest found inside white]
    · rw [next_of_white scanner c rest found inside white]
    · intro count
      have fixed : scanner.next.2.after count = scanner.next.2 :=
        Function.iterate_fixed (congrArg Prod.snd again) count
      rw [after_succ, fixed, again]

inductive Extent
  | line
  | text

def Finishes (extent : Extent) (scanner : Scanner) : Prop :=
  match extent with
  | .line => scanner.next.1.isEndOfLine = true
  | .text => scanner.next.1.isEndOfLine = true ∧ scanner.next.2.atEnd = true

def Ends (extent : Extent) (scanner : Scanner) : Prop := ∃ count, (scanner.after count).Finishes extent

def Stuck (scanner : Scanner) : Prop := ∃ c rest, scanner.Meets c rest ∧ c ≠ '\n' ∧ WhiteSpace c

theorem stuck_iff_stalled (scanner : Scanner) : scanner.Stuck ↔ scanner.Stalled := by
  simp only [Stuck, Stalled, meets_iff, isWhiteSpace_iff]

def Blocked (extent : Extent) (scanner : Scanner) : Prop :=
  ∃ count, (∀ earlier < count, ¬(scanner.after earlier).Finishes extent) ∧ (scanner.after count).Stuck

theorem Finishes.isEndOfLine {extent : Extent} {scanner : Scanner} (finishes : scanner.Finishes extent) :
    scanner.next.1.isEndOfLine = true := by
  cases extent with
  | line => exact finishes
  | text => exact finishes.1

theorem Stalled.not_finishes {scanner : Scanner} (stalled : Stalled scanner) (extent : Extent) :
    ¬scanner.Finishes extent := by
  intro finishes
  have closes := finishes.isEndOfLine
  rw [stalled.next.1] at closes
  cases closes

theorem Stalled.not_ends {scanner : Scanner} (stalled : Stalled scanner) (extent : Extent) :
    ¬scanner.Ends extent := by
  rintro ⟨count, finishes⟩
  exact (stalled.after count).not_finishes extent finishes

theorem ends_iff_step (extent : Extent) (scanner : Scanner) :
    scanner.Ends extent ↔ scanner.Finishes extent ∨ scanner.next.2.Ends extent := by
  constructor
  · rintro ⟨count, finishes⟩
    cases count with
    | zero => exact .inl finishes
    | succ count => exact .inr ⟨count, finishes⟩
  · rintro (finishes | ⟨count, finishes⟩)
    · exact ⟨0, finishes⟩
    · exact ⟨count + 1, finishes⟩

theorem blocked_iff_step (extent : Extent) (scanner : Scanner) :
    scanner.Blocked extent ↔
      scanner.Stuck ∨ ¬scanner.Finishes extent ∧ scanner.next.2.Blocked extent := by
  constructor
  · rintro ⟨count, going, stuck⟩
    cases count with
    | zero => exact .inl stuck
    | succ count =>
        refine .inr ⟨going 0 (by omega), count, ?_, stuck⟩
        intro earlier before
        exact going (earlier + 1) (by omega)
  · rintro (stuck | ⟨going, count, later, stuck⟩)
    · exact ⟨0, by omega, stuck⟩
    · refine ⟨count + 1, ?_, stuck⟩
      intro earlier before
      cases earlier with
      | zero => exact going
      | succ earlier => exact later earlier (by omega)

theorem length_next_lt_of_going {extent : Extent} {scanner : Scanner} (moving : ¬scanner.Stalled)
    (going : ¬scanner.Finishes extent) : scanner.next.2.rest.length < scanner.rest.length := by
  cases closes : scanner.next.1.isEndOfLine with
  | false => exact length_next_lt scanner closes moving
  | true =>
      cases extent with
      | line => exact absurd closes going
      | text =>
          apply length_next_lt_of_line scanner closes
          cases more : scanner.next.2.atEnd with
          | false => rfl
          | true => exact absurd ⟨closes, more⟩ going

/-- Nothing but impassable white space keeps a scanner from coming to an end. -/
theorem ends_iff_not_blocked (extent : Extent) (scanner : Scanner) :
    scanner.Ends extent ↔ ¬scanner.Blocked extent := by
  -- By what is left to read: it gets less with every token that neither stalls nor finishes.
  induction length : scanner.rest.length using Nat.strongRecOn generalizing scanner with
  | ind length ih =>
      have same := stuck_iff_stalled scanner
      by_cases stalled : scanner.Stalled
      · simp [stalled.not_ends extent, (blocked_iff_step extent scanner).mpr (.inl (same.mpr stalled))]
      · rw [ends_iff_step, blocked_iff_step, same]
        by_cases finishes : scanner.Finishes extent
        · simp [finishes, stalled]
        · have shorter := length_next_lt_of_going stalled finishes
          simp [finishes, stalled, ih _ (by omega) scanner.next.2 rfl]

theorem tokens_isSome_iff_ends (scanner : Scanner) :
    scanner.tokens.isSome = true ↔ scanner.Ends .text := by
  induction length : scanner.rest.length using Nat.strongRecOn generalizing scanner with
  | ind length ih =>
      rw [tokens_isSome_iff, ends_iff_step]
      constructor
      · rintro (finishes | ⟨shorter, later⟩)
        · exact .inl finishes
        · exact .inr ((ih _ (by omega) scanner.next.2 rfl).mp later)
      · intro ends
        by_cases finishes : scanner.Finishes .text
        · exact .inl finishes
        · have later := ends.resolve_left finishes
          have moving : ¬scanner.Stalled := fun stalled => stalled.next.2.not_ends .text later
          have shorter := length_next_lt_of_going moving finishes
          exact .inr ⟨shorter, (ih _ (by omega) scanner.next.2 rfl).mpr later⟩

theorem tokens_cons {scanner last : Scanner} {tokens : List Token}
    (ends : scanner.tokens = some (tokens, last)) : ∃ later, tokens = scanner.next.1 :: later ∧
      (later = [] ∨ scanner.next.2.tokens = some (later, last)) := by
  rw [Scanner.tokens] at ends
  dsimp only at ends
  split at ends
  · cases ends
    exact ⟨[], rfl, .inl rfl⟩
  · split at ends
    · obtain ⟨⟨later, final⟩, found, whole⟩ := Option.map_eq_some_iff.mp ends
      cases whole
      exact ⟨later, rfl, .inr found⟩
    · cases ends

/-- Each token of a text is handed out by the scanner that has handed out those before it. -/
theorem next_after_of_tokens {scanner last : Scanner} {tokens : List Token}
    (ends : scanner.tokens = some (tokens, last)) {index : Nat} {token : Token}
    (found : tokens[index]? = some token) :
    (scanner.after index).next.1 = token ∧ ¬(scanner.after index).Stalled := by
  induction index generalizing scanner tokens with
  | zero =>
      obtain ⟨later, rfl, _⟩ := tokens_cons ends
      have going := (tokens_isSome_iff_ends scanner).mp (by simp [ends])
      exact ⟨Option.some.inj found, fun stalled => stalled.not_ends .text going⟩
  | succ index ih =>
      obtain ⟨later, rfl, rfl | rest⟩ := tokens_cons ends
      · simp at found
      · exact ih rest (by simpa using found)

theorem exists_yields_iff_ends (scanner : Scanner) :
    (∃ line ending last, Yields scanner line ending last) ↔ scanner.Ends .line := by
  constructor
  · rintro ⟨line, ending, last, yields⟩
    induction yields with
    | @ending scanner last token step closes =>
        obtain ⟨rfl, rfl⟩ : scanner.next.1 = token ∧ scanner.next.2 = last := Prod.mk.inj step
        exact ⟨0, closes⟩
    | @token scanner middle last token ending line step inside tail ih =>
        obtain ⟨rfl, rfl⟩ : scanner.next.1 = token ∧ scanner.next.2 = middle := Prod.mk.inj step
        exact (ends_iff_step .line scanner).mpr (.inr ih)
  · rintro ⟨count, finishes⟩
    induction count generalizing scanner with
    | zero => exact ⟨[], scanner.next.1, scanner.next.2, .ending rfl finishes⟩
    | succ count ih =>
        by_cases closes : scanner.next.1.isEndOfLine = true
        · exact ⟨[], scanner.next.1, scanner.next.2, .ending rfl closes⟩
        · obtain ⟨line, ending, last, tail⟩ := ih scanner.next.2 finishes
          exact ⟨scanner.next.1 :: line, ending, last, .token rfl (by simpa using closes) tail⟩

theorem takeLine_isSome_iff_ends (scanner : Scanner) :
    (takeLine scanner).isSome = true ↔ scanner.Ends .line := by
  rw [← exists_yields_iff_ends, Option.isSome_iff_exists]
  constructor
  · rintro ⟨⟨tokens, last⟩, taken⟩
    obtain ⟨line, ending, yields⟩ := (Compiled.takeLine_rest_iff scanner last).mp ⟨tokens, taken⟩
    exact ⟨line, ending, last, yields⟩
  · rintro ⟨line, ending, last, yields⟩
    exact ⟨_, yields.takeLine_eq⟩

theorem nextLine_isSome_iff_ends (scanner : Scanner) :
    (Compiled.nextLine scanner).isSome = true ↔ scanner.Ends .line := by
  rw [← exists_yields_iff_ends, Option.isSome_iff_exists]
  constructor
  · rintro ⟨⟨compiled, last⟩, answered⟩
    obtain ⟨line, ending, yields⟩ := Compiled.yields_of_nextLine answered
    exact ⟨line, ending, last, yields⟩
  · rintro ⟨line, ending, last, yields⟩
    exact ⟨_, Compiled.nextLine_eq yields⟩

theorem length_tokens_le {scanner last : Scanner} {tokens : List Token}
    (ends : scanner.tokens = some (tokens, last)) : tokens.length ≤ scanner.rest.length + 1 := by
  fun_induction Scanner.tokens scanner generalizing tokens with
  | case1 scanner token rest step finished =>
      cases ends
      simp
  | case2 scanner token rest step going shorter ih =>
      obtain ⟨⟨later, final⟩, found, whole⟩ := Option.map_eq_some_iff.mp ends
      cases whole
      have bound := ih found
      rw [List.length_cons]
      omega
  | case3 => cases ends

/-- A scanner moves on exactly if it stands before a line end or before what is no white space at all, or
everything is read. So handing out the tokens of a text or of a line, or compiling a line, ends exactly if
no other white space is met on the way, and a text has at most one token more than characters. -/
theorem advances_and_ends_iff (scanner : Scanner) :
    Advances scanner ∧
    (scanner.tokens.isSome = true ↔ scanner.Ends .text) ∧
    ((takeLine scanner).isSome = true ↔ scanner.Ends .line) ∧
    ((Compiled.nextLine scanner).isSome = true ↔ scanner.Ends .line) ∧
    (∀ extent, scanner.Ends extent ↔ ¬scanner.Blocked extent) ∧
    ∀ tokens last, scanner.tokens = some (tokens, last) → tokens.length ≤ scanner.rest.length + 1 := by
  refine ⟨advances scanner, tokens_isSome_iff_ends scanner, takeLine_isSome_iff_ends scanner,
    nextLine_isSome_iff_ends scanner, ?_, ?_⟩
  · intro extent
    exact ends_iff_not_blocked extent scanner
  · intro tokens last ends
    exact length_tokens_le ends

theorem advances_and_ends_iff_vertical_tab :
    ((ofText [' ', '\x0b', 'A']).next.1.kind = .identifier "" ∧
      (ofText [' ', '\x0b', 'A']).next.2.rest = ['\x0b', 'A'] ∧
      ∀ count, ((ofText [' ', '\x0b', 'A']).after (count + 1)).next = (ofText [' ', '\x0b', 'A']).next) ∧
    ¬(ofText [' ', '\x0b', 'A']).tokens.isSome = true ∧
    ∃ tokens last, (ofText ['A', '\n']).tokens = some (tokens, last) ∧ tokens.length ≤ 3 := by
  obtain ⟨steps, whole, _, _, ends, _⟩ := advances_and_ends_iff (ofText [' ', '\x0b', 'A'])
  have meets : (ofText [' ', '\x0b', 'A']).Meets '\x0b' ['A'] := meets_iff.mpr rfl
  refine ⟨steps.staying '\x0b' ['A'] meets (by decide) (by decide), ?_, ?_⟩
  · rw [whole, ends, not_not]
    exact ⟨0, by omega, '\x0b', ['A'], meets, by decide, by decide⟩
  · have finished : (ofText ['A', '\n']).Ends .text := ⟨1, by decide, by decide⟩
    obtain ⟨_, whole, _, _, _, bound⟩ := advances_and_ends_iff (ofText ['A', '\n'])
    obtain ⟨⟨tokens, last⟩, found⟩ := Option.isSome_iff_exists.mp (whole.mpr finished)
    exact ⟨tokens, last, found, bound tokens last found⟩

end Scanner

end Calculator
