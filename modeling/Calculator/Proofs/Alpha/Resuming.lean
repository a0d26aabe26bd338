import Calculator.Proofs.Alpha.Cursor
import Calculator.Proofs.Alpha.Munch

/-! Reading can be broken off behind any code and taken up again there, as if what is behind were a text
of its own. -/

namespace Calculator.Alpha

/-- The longest word of a text is still the longest when the text is cut off behind it. -/
theorem Longest.take {text word : List Char} (longest : Longest text word) {count : Nat}
    (fits : word.length ≤ count) : Longest (text.take count) word := by
  refine ⟨List.prefix_take_iff.mpr ⟨longest.reach, fits⟩, longest.denotes, ?_⟩
  intro other value reach denotes
  exact longest.longest other value (reach.trans (List.take_prefix _ _)) denotes

theorem readPiece_take {c : Char} {rest : List Char} {piece : Piece} (reads : readPiece c rest = .ok piece)
    {count : Nat} (fits : piece.width ≤ count + 1) : readPiece c (rest.take count) = .ok piece := by
  rw [readPiece_eq_ok_iff] at reads ⊢
  obtain ⟨word, longest, width, denotes⟩ := reads
  refine ⟨word, ?_, width, denotes⟩
  rw [← List.take_succ_cons]
  exact longest.take (by omega)

namespace Cursor

theorem next_eq_ok {cursor behind : Cursor} {code : UInt8} (step : cursor.next = (some (.ok code), behind)) :
    ∃ c rest piece, cursor.rest = c :: rest ∧ readPiece c rest = .ok piece ∧ piece.code = code ∧
      behind = ⟨cursor.rest.drop piece.width, cursor.position + piece.width, cursor.halted⟩ := by
  rcases next_outcome cursor with
    ⟨_, silent⟩ | ⟨c, rest, going, text, ⟨piece, reads, moved⟩ | ⟨_, _, failed⟩⟩
  · simp [step] at silent
  · rw [step] at moved
    cases moved
    exact ⟨c, rest, piece, text, reads, rfl, by rw [going]⟩
  · simp [step] at failed

/-- What some calls have gone over, read by itself, gives the codes that they handed out. -/
structure Passes (cursor last : Cursor) (codes : List UInt8) (count : Nat) : Prop where
  within : count ≤ cursor.rest.length
  position : last.position = cursor.position + count
  rest : last.rest = cursor.rest.drop count
  halted : last.halted = cursor.halted
  readings : readingsFrom cursor.position (cursor.rest.take count) = codes.map .ok

theorem Passes.code {cursor behind last : Cursor} {code : UInt8} {codes : List UInt8} {count : Nat}
    (step : cursor.next = (some (.ok code), behind)) (later : Passes behind last codes count) :
    ∃ width, Passes cursor last (code :: codes) (width + count) := by
  obtain ⟨c, rest, piece, text, reads, rfl, rfl⟩ := next_eq_ok step
  obtain ⟨word, reach, length, _⟩ := written_of_readPiece reads
  have width := readPiece_width reads
  have inside := reach.length_le
  rw [List.length_cons] at inside
  have within := later.within
  have readings := later.readings
  simp only [text, List.length_drop, List.length_cons] at within readings
  obtain ⟨more, size⟩ : ∃ more, piece.width = more + 1 := ⟨piece.width - 1, by omega⟩
  refine ⟨piece.width, ?_, ?_, ?_, later.halted, ?_⟩
  · rw [text, List.length_cons]
    omega
  · rw [later.position, Nat.add_assoc]
  · rw [later.rest, List.drop_drop]
  · -- The piece is read from the part gone over as it was read from the whole text.
    have cut := readPiece_take reads (by omega : piece.width ≤ more + count + 1)
    rw [size, List.drop_succ_cons] at readings
    rw [text, size, Nat.add_right_comm, List.take_succ_cons, readingsFrom, cut]
    simp only [size, Nat.add_sub_cancel, List.map_cons]
    rw [List.drop_take, Nat.add_sub_cancel_left, readings]

theorem Reads.passes {cursor last : Cursor} {codes : List UInt8} (reads : Reads cursor codes last) :
    ∃ count, Passes cursor last codes count := by
  induction reads with
  | start cursor => exact ⟨0, by simp, rfl, rfl, rfl, by simp [readingsFrom]⟩
  | code step _ ih =>
      obtain ⟨count, later⟩ := ih
      obtain ⟨width, passes⟩ := Passes.code step later
      exact ⟨width + count, passes⟩

end Cursor

theorem collect_map_ok (codes : List UInt8) : collect (codes.map .ok) = .ok codes := by
  have collected := collect_append_ok codes []
  simpa [collect, Except.map] using collected

/-- Wherever a cursor stands after some codes, the text in front of it encodes to these codes, and the
whole text to them and what the text behind it gives, whose errors only move. -/
theorem encode_split_at_cursor (text : List Char) {codes : List UInt8} {last : Cursor}
    (reads : (Cursor.ofText text).Reads codes last) :
    last.position ≤ text.length ∧
    encode (text.take last.position) = .ok codes ∧
    (∀ rest, encode (text.drop last.position) = .ok rest → encode text = .ok (codes ++ rest)) ∧
    ∀ error, encode (text.drop last.position) = .error error →
      encode text = .error (error.shift last.position) ∧
      (error.shift last.position).offending = error.offending + last.position := by
  obtain ⟨count, passes⟩ := reads.passes
  obtain rfl : last.position = count := passes.position.trans (Nat.zero_add count)
  have ahead : last.ahead = readingsFrom last.position (text.drop last.position) := by
    have going : last.halted = false := passes.halted
    have behind : last.rest = text.drop last.position := passes.rest
    simp only [Cursor.ahead, going, behind]
    rfl
  have whole : encode text =
      ((encode (text.drop last.position)).mapError (ReadError.shift last.position)).map (codes ++ ·) := by
    rw [encode, ← Cursor.ahead_ofText, reads.ahead_eq, ahead, collect_resumed]
  refine ⟨passes.within, ?_, ?_, ?_⟩
  · have front : readings (text.take last.position) = codes.map .ok := passes.readings
    rw [encode, front, collect_map_ok]
  · intro rest encoded
    rw [whole, encoded]
    rfl
  · intro error failed
    refine ⟨?_, error.offending_shift _⟩
    rw [whole, failed]
    rfl

theorem encode_split_at_cursor_before_third_digit :
    ∃ last, (Cursor.ofText ['\x60', '2', '5', '6', 'x', '\u0304', '\x60', 'q']).Reads [25] last ∧
      last.position = 3 ∧ encode ['\x60', '2', '5'] = .ok [25] ∧
      encode ['\x60', '2', '5', '6', 'x', '\u0304', '\x60', 'q'] =
        .error ⟨6, .malformed .unknownFollower⟩ := by
  have reads : (Cursor.ofText ['\x60', '2', '5', '6', 'x', '\u0304', '\x60', 'q']).Reads [25]
      ⟨['6', 'x', '\u0304', '\x60', 'q'], 3, false⟩ := .code rfl (.start _)
  have unfinished : encode ['6', 'x', '\u0304', '\x60', 'q'] =
      .error ⟨3, .malformed .unknownFollower⟩ := by cbv
  obtain ⟨_, front, _, behind⟩ := encode_split_at_cursor _ reads
  exact ⟨_, reads, rfl, front, (behind _ unfinished).1⟩

end Calculator.Alpha
