import Calculator.Proofs.Alpha.Resuming

/-! A cursor as a machine: what one call does to it, and what holds however often it is called. -/

namespace Calculator.Alpha

theorem Denotes.length_le {word : List Char} {value : Nat} (denotes : Denotes word value) :
    word.length ≤ 10 := by
  have digits : ∀ announcement ∈ announcements, announcement.2.2 ≤ 8 := by decide
  have spelled : ∀ symbol ∈ symbols, symbol.spelling.length ≤ 10 := by decide
  cases denotes with
  | @numeral letter base most values figures announced written =>
      have eight : most ≤ 8 := digits _ announced
      have short := written.short
      simp only [List.length_cons]
      omega
  | decimal written _ =>
      have short := written.short
      rw [List.length_cons]
      omega
  | spelling declared _ => exact spelled _ declared
  | _ => simp

theorem readPiece_bounds {c : Char} {rest : List Char} {piece : Piece}
    (reads : readPiece c rest = .ok piece) :
    1 ≤ piece.width ∧ piece.width ≤ 10 ∧ piece.width ≤ (c :: rest).length := by
  obtain ⟨word, reach, width, denotes⟩ := written_of_readPiece reads
  rw [← width]
  exact ⟨List.length_pos_iff.mpr denotes.ne_nil, denotes.length_le, reach.length_le⟩

theorem ReadError.offending_bounds (error : ReadError) :
    error.position ≤ error.offending ∧ error.offending ≤ error.position + 2 := by
  rcases error with ⟨position, defect | c⟩
  · have near : defect.offset ≤ 2 := by
      cases defect with
      | nothingFollows => simp [Defect.offset]
      | unknownFollower => simp [Defect.offset]
      | noDigits radix => simp [Defect.offset]
      | notADigit radix c => simp [Defect.offset]
    exact ⟨Nat.le_add_right _ _, Nat.add_le_add_left near _⟩
  · exact ⟨Nat.le_refl _, Nat.le_add_right _ _⟩

namespace Cursor

theorem Silent.next_eq {cursor : Cursor} (silent : cursor.Silent) : cursor.next = (none, cursor) := by
  rcases next_outcome cursor with ⟨_, step⟩ | ⟨c, rest, going, text, _⟩
  · exact step
  · simp [Silent, going, text] at silent

def after (cursor : Cursor) (count : Nat) : Cursor := (fun cursor => cursor.next.2)^[count] cursor

theorem after_succ (cursor : Cursor) (count : Nat) :
    cursor.after (count + 1) = (cursor.after count).next.2 := Function.iterate_succ_apply' ..

theorem Silent.after_eq {cursor : Cursor} (silent : cursor.Silent) (count : Nat) :
    cursor.after count = cursor :=
  Function.iterate_fixed (congrArg Prod.snd silent.next_eq) count

structure StandsIn (text : List Char) (cursor : Cursor) : Prop where
  within : cursor.position ≤ text.length
  rest : cursor.rest = text.drop cursor.position

namespace StandsIn

variable {text : List Char} {cursor : Cursor}

theorem next (stands : StandsIn text cursor) : StandsIn text cursor.next.2 := by
  rcases next_outcome cursor with ⟨_, step⟩ | ⟨c, rest, _, ahead, ⟨piece, reads, step⟩ | ⟨problem, _, step⟩⟩
  · rw [step]
    exact stands
  · have inside := (readPiece_bounds reads).2.2
    rw [← ahead, stands.rest, List.length_drop] at inside
    have within := stands.within
    rw [step]
    refine ⟨?_, ?_⟩
    · show cursor.position + piece.width ≤ text.length
      omega
    · rw [stands.rest, List.drop_drop]
  · rw [step]
    exact ⟨stands.within, stands.rest⟩

theorem after (stands : StandsIn text cursor) (count : Nat) : StandsIn text (cursor.after count) := by
  induction count with
  | zero => exact stands
  | succ count ih =>
      rw [after_succ]
      exact ih.next

theorem rest_eq_nil_iff (stands : StandsIn text cursor) :
    cursor.rest = [] ↔ cursor.position = text.length := by
  have within := stands.within
  rw [stands.rest, List.drop_eq_nil_iff]
  omega

end StandsIn

theorem standsIn_ofText (text : List Char) : StandsIn text (ofText text) := ⟨Nat.zero_le _, rfl⟩

/-- The error that stops a cursor at a position of a text, and where it points. -/
structure Blames (text : List Char) (position : Nat) (error : ReadError) : Prop where
  here : error.position = position
  lower : error.position ≤ error.offending
  upper : error.offending ≤ error.position + 2
  inside : error.offending < text.length
  malformed : ∀ defect, error.problem = .malformed defect → text[error.position]? = some '\x60'
  unsupported : ∀ c, error.problem = .unsupported c → text[error.position]? = some c

theorem StandsIn.blames {text rest : List Char} {cursor : Cursor} {c : Char} {problem : Problem}
    (stands : StandsIn text cursor) (ahead : cursor.rest = c :: rest)
    (failed : readPiece c rest = .error problem) :
    Blames text cursor.position ⟨cursor.position, problem⟩ := by
  have bounds := ReadError.offending_bounds ⟨cursor.position, problem⟩
  have here : text.drop cursor.position = c :: rest := stands.rest.symm.trans ahead
  have character : text[cursor.position]? = some c := (readAt?_of_drop here).1
  obtain ⟨index, d, place, found, _⟩ := @readPiece_offending c rest ⟨cursor.position, problem⟩ failed
  rw [← here, List.getElem?_drop] at found
  refine ⟨rfl, bounds.1, bounds.2, ?_, ?_, ?_⟩
  · rw [place]
    exact (List.getElem?_eq_some_iff.mp found).1
  · rintro defect rfl
    rcases problem_of_readPiece failed with ⟨escape, _⟩ | ⟨_, other⟩
    · rw [← escape]
      exact character
    · cases other
  · rintro strange rfl
    rcases problem_of_readPiece failed with ⟨_, _, other⟩ | ⟨_, same⟩
    · cases other
    · cases same
      exact character

/-- What a call does to a cursor in a text, and what it settles for the calls behind it. -/
structure Behaves (text : List Char) (cursor : Cursor) : Prop where
  within : cursor.position ≤ text.length
  advances : ∀ code, cursor.next.1 = some (.ok code) →
    cursor.position + 1 ≤ cursor.next.2.position ∧ cursor.next.2.position ≤ cursor.position + 10
  stays : (∀ code, cursor.next.1 ≠ some (.ok code)) → cursor.next.2.position = cursor.position
  stops : (∀ code, cursor.next.1 ≠ some (.ok code)) → ∀ count,
    (cursor.after (count + 1)).next.1 = none ∧ (cursor.after (count + 1)).next.2.position = cursor.position
  blames : ∀ error, cursor.next.1 = some (.error error) → Blames text cursor.position error

theorem later_of_silent {cursor : Cursor} (silent : cursor.next.2.Silent)
    (stays : cursor.next.2.position = cursor.position) (count : Nat) :
    (cursor.after (count + 1)).next.1 = none ∧
      (cursor.after (count + 1)).next.2.position = cursor.position := by
  have settled : cursor.after (count + 1) = cursor.next.2 := silent.after_eq count
  rw [settled, silent.next_eq]
  exact ⟨rfl, stays⟩

theorem StandsIn.behaves {text : List Char} {cursor : Cursor} (stands : StandsIn text cursor) :
    Behaves text cursor := by
  rcases next_outcome cursor with
    ⟨silent, step⟩ | ⟨c, rest, _, ahead, ⟨piece, reads, step⟩ | ⟨problem, failed, step⟩⟩
  · refine ⟨stands.within, ?_, ?_, ?_, ?_⟩
    · simp [step]
    · simp [step]
    · intro _
      exact later_of_silent (by rw [step]; exact silent) (by rw [step])
    · simp [step]
  · have bounds := readPiece_bounds reads
    refine ⟨stands.within, ?_, ?_, ?_, ?_⟩
    · intro code _
      simp only [step]
      omega
    · intro noCode
      simp [step] at noCode
    · intro noCode
      simp [step] at noCode
    · simp [step]
  · refine ⟨stands.within, ?_, ?_, ?_, ?_⟩
    · simp [step]
    · simp [step]
    · intro _
      exact later_of_silent (by rw [step]; exact .inl rfl) (by rw [step])
    · intro error found
      simp only [step, Option.some.injEq, Except.error.injEq] at found
      rw [← found]
      exact stands.blames ahead failed

def Unfailing (cursor : Cursor) (count : Nat) : Prop :=
  ∀ earlier < count, ∀ error, (cursor.after earlier).next.1 ≠ some (.error error)

theorem Unfailing.halted {cursor : Cursor} {count : Nat} (unfailing : cursor.Unfailing count)
    (going : cursor.halted = false) : (cursor.after count).halted = false := by
  induction count with
  | zero => exact going
  | succ count ih =>
      have before := ih fun earlier less => unfailing earlier (by omega)
      rw [after_succ]
      rcases next_outcome (cursor.after count) with
        ⟨_, step⟩ | ⟨c, rest, _, _, ⟨piece, _, step⟩ | ⟨problem, _, step⟩⟩
      · rw [step]
        exact before
      · rw [step]
      · exact absurd (congrArg Prod.fst step) (unfailing count (by omega) _)

theorem StandsIn.next_eq_none_iff {text : List Char} {cursor : Cursor} (stands : StandsIn text cursor)
    (going : cursor.halted = false) : cursor.next.1 = none ↔ cursor.position = text.length := by
  rw [← stands.rest_eq_nil_iff]
  rcases next_outcome cursor with ⟨silent, step⟩ | ⟨c, rest, _, ahead, ⟨piece, _, step⟩ | ⟨problem, _, step⟩⟩
  · simpa [step, Silent, going] using silent
  · simp [step, ahead]
  · simp [step, ahead]

theorem Reads.length_le {cursor last : Cursor} {codes : List UInt8} (reads : Reads cursor codes last) :
    cursor.position + codes.length ≤ last.position := by
  induction reads with
  | start cursor => exact Nat.le_refl _
  | code step _ ih =>
      obtain ⟨c, rest, piece, _, reads, _, rfl⟩ := next_eq_ok step
      have width := readPiece_width reads
      simp only [List.length_cons] at ih ⊢
      omega

theorem Yields.encode_eq {text : List Char} {codes : List UInt8} {error? : Option ReadError}
    (yields : (ofText text).Yields codes error?) : encode text = error?.elim (.ok codes) .error := by
  rw [encode, ← ahead_ofText, yields.ahead_eq, collect_append_ok]
  cases error? with
  | none => simp [collect, Except.map]
  | some error => rfl

theorem Yields.length_le {text : List Char} {codes : List UInt8} {error? : Option ReadError}
    (yields : (ofText text).Yields codes error?) : codes.length ≤ text.length := by
  obtain ⟨last, reads, _⟩ := yields
  obtain ⟨count, passes⟩ := reads.passes
  have moved := reads.length_le
  have within : count ≤ text.length := passes.within
  rw [passes.position] at moved
  omega

/-- However often a cursor is called, it stays in its text. Each code takes it on by one to ten
characters. The first call without a code is its last word: it has failed on the character it stands at,
or has come to the end. So a text is encoded by at most one call more than it has characters. -/
theorem calls_bounded (text : List Char) :
    (∀ count, Behaves text ((ofText text).after count)) ∧
    (∀ count, (ofText text).Unfailing count →
      (((ofText text).after count).next.1 = none ↔ ((ofText text).after count).position = text.length)) ∧
    (∃ codes error?, (ofText text).Yields codes error? ∧ encode text = error?.elim (.ok codes) .error ∧
      codes.length ≤ text.length) ∧
    ∀ codes, encode text = .ok codes → codes.length ≤ text.length := by
  have stands := (standsIn_ofText text).after
  obtain ⟨codes, error?, yields⟩ := (ofText text).exists_yields
  have encoded := yields.encode_eq
  refine ⟨fun count => (stands count).behaves, ?_, ⟨codes, error?, yields, encoded, yields.length_le⟩, ?_⟩
  · intro count unfailing
    exact (stands count).next_eq_none_iff (unfailing.halted rfl)
  · intro found whole
    rw [whole] at encoded
    cases error? with
    | none =>
        cases encoded
        exact yields.length_le
    | some error => cases encoded

theorem calls_bounded_truncated_escape :
    (ofText ['\x60', 'b', '1', '1', '1', '1', '1', '1', '1', '1', '\x60', 'X', '!']).after 1 =
      ⟨['\x60', 'X', '!'], 10, false⟩ ∧
    Blames ['\x60', 'b', '1', '1', '1', '1', '1', '1', '1', '1', '\x60', 'X', '!'] 10
      ⟨10, .malformed (.notADigit .hexadecimal '!')⟩ ∧
    (∀ count, ((⟨['\x60', 'X', '!'], 10, false⟩ : Cursor).after (count + 1)).next.1 = none) ∧
    (ofText ['A']).Unfailing 1 ∧ ((ofText ['A']).after 1).next.1 = none := by
  have moved : (ofText ['\x60', 'b', '1', '1', '1', '1', '1', '1', '1', '1', '\x60', 'X', '!']).after 1 =
      ⟨['\x60', 'X', '!'], 10, false⟩ := rfl
  have second :=
    (calls_bounded ['\x60', 'b', '1', '1', '1', '1', '1', '1', '1', '1', '\x60', 'X', '!']).1 1
  rw [moved] at second
  have unfailing : (ofText ['A']).Unfailing 1 := by
    intro earlier less error
    obtain rfl : earlier = 0 := by omega
    rintro ⟨⟩
  refine ⟨moved, second.blames _ rfl, ?_, unfailing, ((calls_bounded ['A']).2.1 1 unfailing).mpr rfl⟩
  intro count
  exact (second.stops (by rintro code ⟨⟩) count).1

end Cursor

end Calculator.Alpha
