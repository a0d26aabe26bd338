import Calculator.Proofs.Alpha.Reading

/-! Where the errors of a text point: each stands at a character of the text that no piece starts at, and
the character to be changed is one of the text as well. -/

namespace Calculator.Alpha

theorem readNumeral_width {radix : Radix} {text : List Char} {piece : Piece}
    (reads : readNumeral radix text = .ok piece) : 1 ≤ piece.width := by
  unfold readNumeral at reads
  split at reads
  · cases reads
  · cases reads
  · cases reads
    simp only
    omega

theorem readDecimal?_width {text : List Char} {piece : Piece} (reads : readDecimal? text = some piece) :
    1 ≤ piece.width := by
  unfold readDecimal? at reads
  split at reads
  · cases reads
  · cases reads
    simp only
    omega

theorem readEscape_width {text : List Char} {piece : Piece} (reads : readEscape text = .ok piece) :
    1 ≤ piece.width := by
  unfold readEscape at reads
  split at reads
  · cases reads
  · split at reads
    · exact readNumeral_width reads
    · next decimal =>
        cases reads
        exact readDecimal?_width decimal
    · split at reads
      · cases reads
        simp
      · cases reads

theorem symbolAt?_width_pos {text : List Char} {piece : Piece} (found : symbolAt? text = some piece) :
    1 ≤ piece.width := by
  unfold symbolAt? at found
  split at found
  · cases found
  · simp only [Option.orElse_eq_orElse, Option.orElse_eq_or, Option.or_eq_some_iff,
      Option.map_eq_some_iff] at found
    rcases found with ⟨_, _, rfl⟩ | ⟨_, ⟨_, _, rfl⟩ | ⟨_, symbol, chosen, rfl⟩⟩
    · exact Nat.le_refl 1
    · exact Nat.le_refl 1
    · have composite := List.find?_some chosen
      simp only [Symbol.isComposite, Bool.and_eq_true, decide_eq_true_eq] at composite
      exact Nat.le_of_lt composite.1

theorem readPiece_width {c : Char} {rest : List Char} {piece : Piece}
    (reads : readPiece c rest = .ok piece) : 1 ≤ piece.width := by
  unfold readPiece at reads
  split at reads
  · split at reads
    · next escape =>
        cases reads
        exact readEscape_width escape
    · cases reads
  · split at reads
    · next symbol =>
        cases reads
        exact symbolAt?_width_pos symbol
    · cases reads
      simp
    · cases reads

/-- An error among the readings of a text is the problem of the piece at its position. -/
theorem exists_piece_of_error {position : Nat} {text : List Char} {error : ReadError}
    (failed : .error error ∈ readingsFrom position text) :
    ∃ before c rest, text = before ++ c :: rest ∧ error.position = position + before.length ∧
      readPiece c rest = .error error.problem := by
  fun_induction readingsFrom position text with
  | case1 => simp at failed
  | case2 position c rest piece reads ih =>
      have width := readPiece_width reads
      obtain ⟨before, d, behind, split, place, problem⟩ := ih (by simpa using failed)
      have shorter : piece.width - 1 ≤ rest.length := by
        have length := congrArg List.length split
        simp only [List.length_drop, List.length_append, List.length_cons] at length
        omega
      refine ⟨c :: rest.take (piece.width - 1) ++ before, d, behind, ?_, ?_, problem⟩
      · rw [List.append_assoc, ← split, List.cons_append, List.take_append_drop]
      · rw [place, List.length_append, List.length_cons, List.length_take, Nat.min_eq_left shorter]
        omega
  | case3 position c rest problem reads =>
      obtain rfl : error = ⟨position, problem⟩ := by simpa using failed
      exact ⟨[], c, rest, rfl, rfl, reads⟩

theorem readNumeral_defect {radix : Radix} {text : List Char} {defect : Defect}
    (reads : readNumeral radix text = .error defect) : defect.offset ≤ 1 + text.length := by
  unfold readNumeral at reads
  split at reads
  · cases reads
    simp [Defect.offset]
  · cases reads
    simp only [Defect.offset, List.length_cons]
    omega
  · cases reads

theorem readEscape_defect {text : List Char} {defect : Defect} (reads : readEscape text = .error defect) :
    defect.offset ≤ text.length := by
  unfold readEscape at reads
  split at reads
  · cases reads
    simp [Defect.offset]
  · split at reads
    · have near := readNumeral_defect reads
      rw [List.length_cons]
      omega
    · cases reads
    · split at reads
      · cases reads
      · cases reads
        simp [Defect.offset]

/-- The character to be changed is within the text, and one that is not supported is that character. -/
theorem readPiece_offending {c : Char} {rest : List Char} {error : ReadError}
    (reads : readPiece c rest = .error error.problem) :
    ∃ index d, error.offending = error.position + index ∧ (c :: rest)[index]? = some d ∧
      ∀ strange, error.problem = .unsupported strange → d = strange := by
  unfold readPiece at reads
  split at reads
  · split at reads
    · cases reads
    · next defect escape =>
        have problem : error.problem = .malformed defect := (Except.error.inj reads).symm
        have inside : defect.offset < (c :: rest).length := by
          have near := readEscape_defect escape
          rw [List.length_cons]
          omega
        refine ⟨defect.offset, _, ?_, List.getElem?_eq_getElem inside, ?_⟩
        · simp only [ReadError.offending, problem]
        · intro strange unsupported
          rw [problem] at unsupported
          cases unsupported
  · split at reads
    · cases reads
    · cases reads
    · have problem : error.problem = .unsupported c := (Except.error.inj reads).symm
      refine ⟨0, c, ?_, rfl, ?_⟩
      · simp only [ReadError.offending, problem, Nat.add_zero]
      · intro strange unsupported
        rw [problem] at unsupported
        exact Problem.unsupported.inj unsupported

theorem mem_of_collect {readings : List (Except ReadError UInt8)} {error : ReadError}
    (failed : collect readings = .error error) : .error error ∈ readings := by
  induction readings with
  | nil => cases failed
  | cons reading rest ih =>
      cases reading with
      | error first =>
          cases failed
          exact List.mem_cons_self
      | ok code =>
          apply List.mem_cons_of_mem
          apply ih
          rw [collect] at failed
          split at failed
          · cases failed
          · next later =>
              cases failed
              exact later

/-- The first error of a text points at one of its characters. -/
theorem exists_offending {text : List Char} {error : ReadError} (failed : encode text = .error error) :
    ∃ c, text[error.offending]? = some c ∧ ∀ strange, error.problem = .unsupported strange → c = strange := by
  obtain ⟨before, c, rest, rfl, place, problem⟩ := exists_piece_of_error (mem_of_collect failed)
  obtain ⟨index, d, offending, character, same⟩ := readPiece_offending problem
  refine ⟨d, ?_, same⟩
  rw [offending, place, Nat.zero_add, List.getElem?_append_right (Nat.le_add_right _ _), Nat.add_sub_cancel_left]
  exact character

end Calculator.Alpha
