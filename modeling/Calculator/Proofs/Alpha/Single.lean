import Calculator.Proofs.Alpha.Munch

/-! Characters by themselves and in a text. What follows a character changes its code only where the two
begin a spelling of several characters. -/

namespace Calculator.Alpha

structure CompositeAt (text : List Char) (symbol : Symbol) : Prop where
  declared : symbol ∈ symbols
  several : 1 < symbol.spelling.length
  reach : symbol.spelling <+: text

theorem find?_of_no_composite {text : List Char} (apart : ∀ symbol, ¬CompositeAt text symbol) :
    (symbols.find? fun symbol => symbol.isComposite && symbol.spelling.isPrefixOf text) = none := by
  apply List.find?_eq_none.mpr
  intro symbol declared chosen
  simp only [Symbol.isComposite, Bool.and_eq_true, decide_eq_true_eq, List.isPrefixOf_iff_prefix] at chosen
  exact apart symbol ⟨declared, chosen.1, chosen.2⟩

theorem no_composite_alone (c : Char) (symbol : Symbol) : ¬CompositeAt [c] symbol := by
  intro whole
  have several := whole.several
  have within := whole.reach.length_le
  rw [List.length_singleton] at within
  omega

theorem symbolAt?_of_no_composite {c : Char} {rest : List Char}
    (apart : ∀ symbol, ¬CompositeAt (c :: rest) symbol) : symbolAt? (c :: rest) = symbolAt? [c] := by
  simp only [symbolAt?, find?_of_no_composite apart, find?_of_no_composite (no_composite_alone c)]

/-- A character is read as by itself where the same symbol, or none, is found in both cases. -/
theorem readPiece_of_same_symbol {c : Char} {rest : List Char} (unescaped : c ≠ '\x60')
    (same : symbolAt? (c :: rest) = symbolAt? [c]) :
    (∃ code, readPiece c rest = .ok ⟨code, 1⟩ ∧ encodeChar c = .ok code) ∨
      readPiece c rest = .error (.unsupported c) ∧ encodeChar c = .error ⟨0, .unsupported c⟩ := by
  cases found : symbolAt? [c] with
  | some piece =>
      have width := symbolAt?_width c piece found
      refine .inl ⟨piece.code, ?_, by simp only [encodeChar, found]⟩
      rw [readPiece_of_symbol unescaped (same.trans found), ← width]
  | none =>
      rw [readPiece_of_plain unescaped (same.trans found)]
      by_cases small : c.toNat < 256
      · exact .inl ⟨_, if_pos small, by simp only [encodeChar, found, plainCode?, if_pos small]⟩
      · exact .inr ⟨if_neg small, by simp only [encodeChar, found, plainCode?, if_neg small]⟩

theorem readPiece_of_composite {c : Char} {rest : List Char} {symbol : Symbol}
    (whole : CompositeAt (c :: rest) symbol) :
    readPiece c rest = .ok ⟨symbol.code, symbol.spelling.length⟩ := by
  have several := whole.several
  rcases form_cases symbol whole.declared symbol.spelling List.mem_cons_self with
    ⟨single, _⟩ | ⟨spelled, code⟩
  · omega
  · obtain ⟨tail, split⟩ := whole.reach
    simp only [spelled, List.cons_append, List.nil_append, List.cons.injEq] at split
    obtain ⟨rfl, rfl⟩ := split
    rw [readPiece_composite, spelled, code]
    rfl

theorem exists_drop {text : List Char} {position : Nat} {c : Char} (here : text[position]? = some c) :
    ∃ rest, text.drop position = c :: rest := by
  obtain ⟨inside, rfl⟩ := List.getElem?_eq_some_iff.mp here
  exact ⟨_, List.drop_eq_getElem_cons inside⟩

/-- Where no spelling of several characters stands, a character in a text is read as it is by itself.
Where one does, its symbol is read. -/
theorem readAt?_agrees_with_encodeChar (text : List Char) (position : Nat) {c : Char}
    (here : text[position]? = some c) (unescaped : c ≠ '\x60') :
    ((∀ symbol, ¬CompositeAt (text.drop position) symbol) →
      (∀ code, readAt? text position = some (.ok ⟨code, 1⟩) ↔ encodeChar c = .ok code) ∧
      (readAt? text position = some (.error ⟨position, .unsupported c⟩) ↔
        encodeChar c = .error ⟨0, .unsupported c⟩)) ∧
    ∀ symbol, CompositeAt (text.drop position) symbol →
      readAt? text position = some (.ok ⟨symbol.code, symbol.spelling.length⟩) := by
  obtain ⟨rest, ahead⟩ := exists_drop here
  have reading := (readAt?_of_drop ahead).2
  rw [ahead]
  constructor
  · intro apart
    rcases readPiece_of_same_symbol unescaped (symbolAt?_of_no_composite apart) with
      ⟨code, reads, encoded⟩ | ⟨failed, refused⟩
    · simp [reading, reads, encoded, Except.mapError]
    · simp [reading, failed, refused, Except.mapError]
  · intro symbol whole
    rw [reading, readPiece_of_composite whole]
    rfl

theorem readAt?_agrees_with_encodeChar_other_mark :
    (∀ symbol, ¬CompositeAt ['x', '\u0308', '\u0304'] symbol) ∧
    readAt? ['€', 'x', '\u0308', '\u0304'] 1 = some (.ok ⟨120, 1⟩) ∧
    CompositeAt ['x', '\u0304', '\u0308'] ⟨2, ['x', '\u0304'], some 'ẍ'⟩ ∧
    readAt? ['€', 'x', '\u0304', '\u0308'] 1 = some (.ok ⟨2, 2⟩) := by
  have unmatched : ∀ symbol ∈ symbols, 1 < symbol.spelling.length →
      ¬symbol.spelling <+: ['x', '\u0308', '\u0304'] := by decide
  have apart : ∀ symbol, ¬CompositeAt ['x', '\u0308', '\u0304'] symbol := fun symbol whole =>
    unmatched symbol whole.declared whole.several whole.reach
  have whole : CompositeAt ['x', '\u0304', '\u0308'] ⟨2, ['x', '\u0304'], some 'ẍ'⟩ :=
    ⟨by decide, by decide, by decide⟩
  have letter : encodeChar 'x' = .ok 120 := by cbv
  refine ⟨apart, ?_, whole, ?_⟩
  · exact (((readAt?_agrees_with_encodeChar ['€', 'x', '\u0308', '\u0304'] 1 rfl (by decide)).1 apart).1
      120).mpr letter
  · exact (readAt?_agrees_with_encodeChar ['€', 'x', '\u0304', '\u0308'] 1 rfl (by decide)).2 _ whole

end Calculator.Alpha
