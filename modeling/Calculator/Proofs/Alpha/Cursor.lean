import Calculator.Proofs.Alpha.Offending

/-! What a cursor hands out, one call after another: the readings of the text ahead of it. -/

namespace Calculator.Alpha.Cursor

def ahead (cursor : Cursor) : List (Except ReadError UInt8) :=
  if cursor.halted then [] else readingsFrom cursor.position cursor.rest

theorem ahead_ofText (text : List Char) : (ofText text).ahead = readings text := by
  simp [ahead, ofText, readings]

def Silent (cursor : Cursor) : Prop := cursor.halted = true ∨ cursor.rest = []

/-- All that a call can do. -/
theorem next_outcome (cursor : Cursor) :
    (cursor.Silent ∧ cursor.next = (none, cursor)) ∨
    ∃ c rest, cursor.halted = false ∧ cursor.rest = c :: rest ∧
      ((∃ piece, readPiece c rest = .ok piece ∧ cursor.next =
        (some (.ok piece.code), ⟨cursor.rest.drop piece.width, cursor.position + piece.width, false⟩)) ∨
      ∃ problem, readPiece c rest = .error problem ∧ cursor.next =
        (some (.error ⟨cursor.position, problem⟩), ⟨cursor.rest, cursor.position, true⟩)) := by
  obtain ⟨text, position, halted⟩ := cursor
  cases halted with
  | true => exact .inl ⟨.inl rfl, rfl⟩
  | false =>
      cases text with
      | nil => exact .inl ⟨.inr rfl, rfl⟩
      | cons c rest =>
          refine .inr ⟨c, rest, rfl, rfl, ?_⟩
          cases reads : readPiece c rest with
          | ok piece => exact .inl ⟨piece, rfl, by simp [next, reads]⟩
          | error problem => exact .inr ⟨problem, rfl, by simp [next, reads]⟩

/-- A call takes the first reading off what is ahead, and all of it if that is an error. -/
theorem next_cases (cursor : Cursor) :
    (cursor.next = (none, cursor) ∧ cursor.ahead = []) ∨
    (∃ code behind, cursor.next = (some (.ok code), behind) ∧
      cursor.ahead = .ok code :: behind.ahead) ∨
    ∃ error behind, cursor.next = (some (.error error), behind) ∧ cursor.ahead = [.error error] := by
  rcases next_outcome cursor with
    ⟨silent, step⟩ | ⟨c, rest, going, text, ⟨piece, reads, step⟩ | ⟨problem, reads, step⟩⟩
  · refine .inl ⟨step, ?_⟩
    rcases silent with halted | nothing
    · simp [ahead, halted]
    · simp [ahead, nothing, readingsFrom]
  · -- the cursor drops the piece at once, the readings its first character apart
    have width := readPiece_width reads
    obtain ⟨more, size⟩ : ∃ more, piece.width = more + 1 := ⟨piece.width - 1, by omega⟩
    refine .inr (.inl ⟨_, _, step, ?_⟩)
    simp [ahead, going, text, readingsFrom, reads, size]
  · refine .inr (.inr ⟨_, _, step, ?_⟩)
    simp [ahead, going, text, readingsFrom, reads]

/-- As many calls as there are codes hand these out and lead to the last cursor. -/
inductive Reads : Cursor → List UInt8 → Cursor → Prop
  | start (cursor : Cursor) : Reads cursor [] cursor
  | code {cursor behind last : Cursor} {code : UInt8} {codes : List UInt8}
      (step : cursor.next = (some (.ok code), behind)) (later : Reads behind codes last) :
      Reads cursor (code :: codes) last

/-- The codes that a cursor hands out before its first error or the end of the text, and that error, if
there is one. -/
def Yields (cursor : Cursor) (codes : List UInt8) (error? : Option ReadError) : Prop :=
  ∃ last, Reads cursor codes last ∧ last.next.1 = error?.map .error

theorem Reads.ahead_eq {cursor last : Cursor} {codes : List UInt8} (reads : Reads cursor codes last) :
    cursor.ahead = codes.map .ok ++ last.ahead := by
  induction reads with
  | start cursor => simp
  | @code cursor behind last code codes step later ih =>
      have first : cursor.ahead = .ok code :: behind.ahead := by
        rcases next_cases cursor with ⟨silent, _⟩ | ⟨_, _, found, ahead⟩ | ⟨_, _, failed, _⟩
        · simp [step] at silent
        · simp only [step, Prod.mk.injEq, Option.some.injEq, Except.ok.injEq] at found
          rw [ahead, found.1, found.2]
        · simp [step] at failed
      rw [first, ih, List.map_cons, List.cons_append]

theorem Yields.ahead_eq {cursor : Cursor} {codes : List UInt8} {error? : Option ReadError}
    (yields : cursor.Yields codes error?) :
    cursor.ahead = codes.map .ok ++ error?.toList.map .error := by
  obtain ⟨last, reads, stop⟩ := yields
  rw [reads.ahead_eq]
  rcases next_cases last with ⟨step, ahead⟩ | ⟨code, behind, step, _⟩ | ⟨error, behind, step, ahead⟩
  · cases error? with
    | none => simp [ahead]
    | some error => simp [step] at stop
  · cases error? with
    | none => simp [step] at stop
    | some error => simp [step] at stop
  · cases error? with
    | none => simp [step] at stop
    | some first =>
        simp only [step, Option.map_some, Option.some.injEq, Except.error.injEq] at stop
        simp [ahead, stop]

theorem exists_yields (cursor : Cursor) : ∃ codes error?, cursor.Yields codes error? := by
  induction left : cursor.ahead generalizing cursor with
  | nil =>
      rcases next_cases cursor with ⟨step, _⟩ | ⟨_, _, _, ahead⟩ | ⟨_, _, _, ahead⟩
      · exact ⟨[], none, cursor, .start cursor, by simp [step]⟩
      · simp [left] at ahead
      · simp [left] at ahead
  | cons reading more ih =>
      rcases next_cases cursor with ⟨_, ahead⟩ | ⟨code, behind, step, ahead⟩ | ⟨error, behind, step, _⟩
      · simp [left] at ahead
      · rw [left] at ahead
        obtain ⟨codes, error?, last, reads, stop⟩ := ih behind (List.cons.inj ahead).2.symm
        exact ⟨code :: codes, error?, last, .code step reads, stop⟩
      · exact ⟨[], some error, cursor, .start cursor, by simp [step]⟩

end Calculator.Alpha.Cursor
