import Calculator.Proofs.Alpha.Spelling

/-! The words that stand for codes, and reading as the search for the longest of them that a text starts
with. -/

namespace Calculator.Alpha

def lowerDigits : List Char :=
  ['0', '1', '2', '3', '4', '5', '6', '7', '8', '9', 'a', 'b', 'c', 'd', 'e', 'f']

def upperDigits : List Char :=
  ['0', '1', '2', '3', '4', '5', '6', '7', '8', '9', 'A', 'B', 'C', 'D', 'E', 'F']

def IsDigit (base value : Nat) (c : Char) : Prop :=
  value < base ∧ (lowerDigits[value]? = some c ∨ upperDigits[value]? = some c)

structure Figures (base most : Nat) (values : List Nat) (digits : List Char) : Prop where
  digit : List.Forall₂ (IsDigit base) values digits
  started : digits ≠ []
  short : digits.length ≤ most

def announcements : List (Char × Nat × Nat) := [('x', 16, 2), ('X', 16, 2), ('b', 2, 8), ('B', 2, 8)]

def IsStandIn (c : Char) : Prop := ∃ symbol ∈ symbols, symbol.standIn = some c

def IsSpelling (word : List Char) : Prop := ∃ symbol ∈ symbols, symbol.spelling = word

/-- The words that stand for codes, each with the value of its code. A character is a stand-in before it
is a spelling, and a spelling before it stands for itself. -/
inductive Denotes : List Char → Nat → Prop
  | numeral {letter : Char} {base most : Nat} {values : List Nat} {digits : List Char}
      (announced : (letter, base, most) ∈ announcements) (written : Figures base most values digits) :
      Denotes ('\x60' :: letter :: digits) (Nat.ofDigits base values.reverse)
  | decimal {values : List Nat} {digits : List Char} (written : Figures 10 3 values digits)
      (small : Nat.ofDigits 10 values.reverse ≤ 255) :
      Denotes ('\x60' :: digits) (Nat.ofDigits 10 values.reverse)
  | masked {c : Char} (hidden : c ∈ ['@', '#', '&']) : Denotes ['\x60', c] c.toNat
  | standIn {symbol : Symbol} {c : Char} (declared : symbol ∈ symbols)
      (typed : symbol.standIn = some c) : Denotes [c] symbol.code.toNat
  | spelling {symbol : Symbol} (declared : symbol ∈ symbols)
      (other : ∀ c, symbol.spelling = [c] → ¬IsStandIn c) : Denotes symbol.spelling symbol.code.toNat
  | plain {c : Char} (small : c.toNat ≤ 0xff) (unescaped : c ≠ '\x60') (noStandIn : ¬IsStandIn c)
      (noSpelling : ¬IsSpelling [c]) : Denotes [c] c.toNat

structure Longest (text word : List Char) : Prop where
  reach : word <+: text
  denotes : ∃ value, Denotes word value
  longest : ∀ other value, other <+: text → Denotes other value → other.length ≤ word.length

def NoWord (text : List Char) : Prop := ∀ word value, word <+: text → ¬Denotes word value

namespace Piece

def WrittenAt (text : List Char) (piece : Piece) : Prop :=
  ∃ word, word <+: text ∧ word.length = piece.width ∧ Denotes word piece.code.toNat

def Absorbs (piece : Piece) (word : List Char) (value : Nat) : Prop :=
  word.length < piece.width ∨ word.length = piece.width ∧ value = piece.code.toNat

end Piece

theorem digit?_sixteen_of_isDigit : ∀ value < 16, ∀ digits ∈ [lowerDigits, upperDigits],
    digits[value]?.bind (digit? 16) = some value := by
  decide

theorem isDigit_of_toNat : ∀ code < 128, ∀ value ∈ digit? 16 (Char.ofNat code),
    value < 16 ∧ (lowerDigits[value]? = some (Char.ofNat code) ∨
      upperDigits[value]? = some (Char.ofNat code)) := by
  decide +kernel

theorem digit?_eq_filter {base : Nat} (small : base ≤ 16) (c : Char) :
    digit? base c = (digit? 16 c).filter (· < base) := by
  simp only [digit?, Option.filter_filter]
  congr 1
  funext value
  have wider : value < base → value < 16 := by omega
  simpa using wider

theorem toNat_lt_of_digit? {base value : Nat} {c : Char} (found : digit? base c = some value) :
    c.toNat < 128 := by
  simp only [digit?, Option.filter_eq_some_iff] at found
  obtain ⟨found, _⟩ := found
  simp only [Char.le_def, UInt32.le_iff_toNat_le] at found
  split at found
  · next bounds =>
      have upper : c.toNat ≤ 57 := bounds.2
      omega
  · split at found
    · next bounds =>
        have upper : c.toNat ≤ 102 := bounds.2
        omega
    · split at found
      · next bounds =>
          have upper : c.toNat ≤ 70 := bounds.2
          omega
      · cases found

theorem digit?_eq_some_iff {base value : Nat} {c : Char} (small : base ≤ 16) :
    digit? base c = some value ↔ IsDigit base value c := by
  constructor
  · intro found
    have code := toNat_lt_of_digit? found
    rw [digit?_eq_filter small, Option.filter_eq_some_iff] at found
    obtain ⟨_, listed⟩ := isDigit_of_toNat c.toNat code value (by rw [Char.ofNat_toNat]; exact found.1)
    rw [Char.ofNat_toNat] at listed
    exact ⟨by simpa using found.2, listed⟩
  · rintro ⟨below, listed⟩
    rw [digit?_eq_filter small, Option.filter_eq_some_iff]
    refine ⟨?_, by simpa using below⟩
    rcases listed with lower | upper
    · simpa [lower] using digit?_sixteen_of_isDigit value (by omega) lowerDigits (by simp)
    · simpa [upper] using digit?_sixteen_of_isDigit value (by omega) upperDigits (by simp)

theorem numeralValue_eq_ofDigits (base : Nat) (values : List Nat) :
    numeralValue base values = Nat.ofDigits base values.reverse := by
  simp only [numeralValue, Nat.ofDigits_eq_foldr, List.foldr_reverse, Nat.cast_id, Nat.add_comm]

theorem leadingDigits_length_le (base limit : Nat) (text : List Char) :
    (leadingDigits base limit text).length ≤ limit := by
  induction limit generalizing text with
  | zero => simp [leadingDigits]
  | succ limit ih =>
      cases text with
      | nil => simp [leadingDigits]
      | cons c rest =>
          simp only [leadingDigits]
          split
          · simpa using ih rest
          · simp

theorem leadingDigits_isDigit {base : Nat} (small : base ≤ 16) (limit : Nat) (text : List Char) :
    List.Forall₂ (IsDigit base) (leadingDigits base limit text)
      (text.take (leadingDigits base limit text).length) := by
  induction limit generalizing text with
  | zero => simp [leadingDigits]
  | succ limit ih =>
      cases text with
      | nil => simp [leadingDigits]
      | cons c rest =>
          rw [leadingDigits]
          split
          · next value found =>
              rw [List.length_cons, List.take_succ_cons]
              exact .cons ((digit?_eq_some_iff small).mp found) (ih rest)
          · exact .nil

theorem leadingDigits_append {base : Nat} (small : base ≤ 16) {values : List Nat} {digits : List Char}
    (digit : List.Forall₂ (IsDigit base) values digits) (limit : Nat) (fits : digits.length ≤ limit)
    (tail : List Char) :
    ∃ more, leadingDigits base limit (digits ++ tail) = values ++ more := by
  induction digit generalizing limit with
  | nil => exact ⟨_, rfl⟩
  | @cons value c values digits first later ih =>
      rw [List.length_cons] at fits
      obtain ⟨room, rfl⟩ : ∃ room, limit = room + 1 := ⟨limit - 1, by omega⟩
      obtain ⟨more, read⟩ := ih room (by omega)
      refine ⟨more, ?_⟩
      rw [List.cons_append, leadingDigits, (digit?_eq_some_iff small).mpr first]
      simp only [read, List.cons_append]

theorem ofDigits_lt_pow {base : Nat} (two : 1 < base) {values : List Nat} {digits : List Char}
    (digit : List.Forall₂ (IsDigit base) values digits) :
    Nat.ofDigits base values.reverse < base ^ digits.length := by
  have below := ((List.forall₂_and_left values digits).mp digit).1
  rw [← digit.length_eq, ← List.length_reverse]
  exact Nat.ofDigits_lt_base_pow_length two fun value member => below value (List.mem_reverse.mp member)

theorem mem_announcements_iff {letter : Char} {base most : Nat} :
    (letter, base, most) ∈ announcements ↔
      ∃ radix, Radix.ofLetter? letter = some radix ∧ radix.base = base ∧ radix.maxDigits = most := by
  constructor
  · intro member
    simp only [announcements, List.mem_cons, List.not_mem_nil, or_false, Prod.mk.injEq] at member
    rcases member with ⟨rfl, rfl, rfl⟩ | ⟨rfl, rfl, rfl⟩ | ⟨rfl, rfl, rfl⟩ | ⟨rfl, rfl, rfl⟩
    · exact ⟨.hexadecimal, by decide, rfl, rfl⟩
    · exact ⟨.hexadecimal, by decide, rfl, rfl⟩
    · exact ⟨.binary, by decide, rfl, rfl⟩
    · exact ⟨.binary, by decide, rfl, rfl⟩
  · rintro ⟨radix, announced, rfl, rfl⟩
    unfold Radix.ofLetter? at announced
    split at announced
    · next letter =>
        cases announced
        rcases letter with rfl | rfl
        · simp [announcements, Radix.base, Radix.maxDigits]
        · simp [announcements, Radix.base, Radix.maxDigits]
    · split at announced
      · next letter =>
          cases announced
          rcases letter with rfl | rfl
          · simp [announcements, Radix.base, Radix.maxDigits]
          · simp [announcements, Radix.base, Radix.maxDigits]
      · cases announced

theorem Radix.base_bounds (radix : Radix) : 1 < radix.base ∧ radix.base ≤ 16 := by
  cases radix with
  | hexadecimal => simp [base]
  | binary => simp [base]

/-- As many digits as a radix allows fill a byte. -/
theorem Radix.base_pow_maxDigits (radix : Radix) : radix.base ^ radix.maxDigits = 256 := by
  cases radix with
  | hexadecimal => rfl
  | binary => rfl

theorem toNat_ofNat_code {value : Nat} (small : value < 256) : (UInt8.ofNat value).toNat = value := by
  rw [UInt8.toNat_ofNat', Nat.mod_eq_of_lt small]

/-- Digits that a radix allows are worth what a byte can hold. -/
theorem toNat_numeralValue {radix : Radix} {values : List Nat} {digits : List Char}
    (digit : List.Forall₂ (IsDigit radix.base) values digits) (short : digits.length ≤ radix.maxDigits) :
    (UInt8.ofNat (numeralValue radix.base values)).toNat = Nat.ofDigits radix.base values.reverse := by
  have bounds := radix.base_bounds
  have value := ofDigits_lt_pow bounds.1 digit
  have most := Nat.pow_le_pow_right (Nat.le_of_lt bounds.1) short
  rw [radix.base_pow_maxDigits] at most
  rw [numeralValue_eq_ofDigits, toNat_ofNat_code (by omega)]

theorem readNumeral_eq_ok_iff {radix : Radix} {text : List Char} {piece : Piece} :
    readNumeral radix text = .ok piece ↔
      leadingDigits radix.base radix.maxDigits text ≠ [] ∧
      piece = ⟨UInt8.ofNat (numeralValue radix.base (leadingDigits radix.base radix.maxDigits text)),
        2 + (leadingDigits radix.base radix.maxDigits text).length⟩ := by
  unfold readNumeral
  cases leadingDigits radix.base radix.maxDigits text with
  | nil =>
      cases text with
      | nil => simp
      | cons c rest => simp
  | cons value values => simp [eq_comm]

theorem written_of_readNumeral {letter : Char} {radix : Radix} {text : List Char} {piece : Piece}
    (announced : Radix.ofLetter? letter = some radix) (reads : readNumeral radix text = .ok piece) :
    piece.WrittenAt ('\x60' :: letter :: text) := by
  obtain ⟨started, rfl⟩ := readNumeral_eq_ok_iff.mp reads
  have digit := leadingDigits_isDigit radix.base_bounds.2 radix.maxDigits text
  have short := leadingDigits_length_le radix.base radix.maxDigits text
  generalize leadingDigits radix.base radix.maxDigits text = values at started digit short
  have length := digit.length_eq
  refine ⟨'\x60' :: letter :: text.take values.length, ?_, ?_, ?_⟩
  · exact List.cons_prefix_cons.mpr ⟨rfl, List.cons_prefix_cons.mpr ⟨rfl, List.take_prefix _ _⟩⟩
  · simp only [List.length_cons, ← length]
    omega
  · rw [toNat_numeralValue digit (by omega)]
    refine .numeral (mem_announcements_iff.mpr ⟨radix, announced, rfl, rfl⟩) ⟨digit, ?_, by omega⟩
    rw [← List.length_pos_iff, ← length]
    exact List.length_pos_iff.mpr started

theorem absorbs_of_figures {letter : Char} {radix : Radix} {values : List Nat} {digits : List Char}
    (announced : Radix.ofLetter? letter = some radix)
    (written : Figures radix.base radix.maxDigits values digits) (tail : List Char) :
    ∃ piece, readEscape (letter :: (digits ++ tail)) = .ok piece ∧
      piece.Absorbs ('\x60' :: letter :: digits) (Nat.ofDigits radix.base values.reverse) := by
  have length := written.digit.length_eq
  have started := List.length_pos_iff.mpr written.started
  obtain ⟨more, read⟩ :=
    leadingDigits_append radix.base_bounds.2 written.digit radix.maxDigits written.short tail
  have filled : values ++ more ≠ [] := by
    rw [← List.length_pos_iff, List.length_append]
    omega
  refine ⟨⟨UInt8.ofNat (numeralValue radix.base (values ++ more)), 2 + (values ++ more).length⟩, ?_, ?_⟩
  · simp only [readEscape, announced]
    rw [readNumeral_eq_ok_iff, read]
    exact ⟨filled, rfl⟩
  · cases more with
    | nil =>
        rw [List.append_nil]
        refine .inr ⟨?_, (toNat_numeralValue written.digit written.short).symm⟩
        simp only [List.length_cons]
        omega
    | cons value more =>
        left
        simp only [List.length_cons, List.length_append]
        omega

theorem numeralValue_lt_pow {base : Nat} (two : 1 < base) {values : List Nat} {digits : List Char}
    (digit : List.Forall₂ (IsDigit base) values digits) :
    numeralValue base values < base ^ values.length := by
  rw [numeralValue_eq_ofDigits, digit.length_eq]
  exact ofDigits_lt_pow two digit

theorem leadingDigits_take {base : Nat} (small : base ≤ 16) {limit count : Nat} {text : List Char}
    (within : count ≤ (leadingDigits base limit text).length) :
    List.Forall₂ (IsDigit base) ((leadingDigits base limit text).take count) (text.take count) := by
  have digit := List.forall₂_take count (leadingDigits_isDigit small limit text)
  rwa [List.take_take, Nat.min_eq_left within] at digit

theorem readDecimal?_of_digits {text : List Char} (started : leadingDigits 10 3 text ≠ []) :
    readDecimal? text =
      let kept := if numeralValue 10 (leadingDigits 10 3 text) ≤ 255 then leadingDigits 10 3 text
        else (leadingDigits 10 3 text).dropLast
      some ⟨UInt8.ofNat (numeralValue 10 kept), 1 + kept.length⟩ := by
  unfold readDecimal?
  split
  · contradiction
  · rfl

/-- A decimal numeral keeps the digits a byte can hold: all there are, or two of three. -/
theorem readDecimal?_cases (text : List Char) :
    (leadingDigits 10 3 text = [] ∧ readDecimal? text = none) ∨
    ∃ count, 0 < count ∧ count ≤ (leadingDigits 10 3 text).length ∧
      numeralValue 10 ((leadingDigits 10 3 text).take count) ≤ 255 ∧
      (count = (leadingDigits 10 3 text).length ∨
        count + 1 = (leadingDigits 10 3 text).length ∧ 255 < numeralValue 10 (leadingDigits 10 3 text)) ∧
      readDecimal? text =
        some ⟨UInt8.ofNat (numeralValue 10 ((leadingDigits 10 3 text).take count)), 1 + count⟩ := by
  by_cases nothing : leadingDigits 10 3 text = []
  · exact .inl ⟨nothing, by simp only [readDecimal?, nothing]⟩
  · right
    have started := List.length_pos_iff.mpr nothing
    have short := leadingDigits_length_le 10 3 text
    have bound {count : Nat} (within : count ≤ (leadingDigits 10 3 text).length) :
        numeralValue 10 ((leadingDigits 10 3 text).take count) < 10 ^ count := by
      have value := numeralValue_lt_pow (by omega) (leadingDigits_take (by omega : 10 ≤ 16) within)
      rwa [List.length_take, Nat.min_eq_left within] at value
    rw [readDecimal?_of_digits nothing]
    generalize leadingDigits 10 3 text = digits at started short bound
    by_cases fits : numeralValue 10 digits ≤ 255
    · refine ⟨digits.length, started, Nat.le_refl _, ?_, .inl rfl, ?_⟩
      · rwa [List.take_length]
      · simp only [fits, if_true, List.take_length]
    · have three : digits.length = 3 := by
        by_contra fewer
        have value := bound (Nat.le_refl _)
        have hundred := Nat.pow_le_pow_right (by omega : 0 < 10) (by omega : digits.length ≤ 2)
        rw [List.take_length] at value
        omega
      have kept := bound (by omega : 2 ≤ digits.length)
      refine ⟨2, by omega, by omega, by omega, .inr ⟨by omega, by omega⟩, ?_⟩
      simp only [fits, if_false, List.dropLast_eq_take, three, List.length_take]
      simp

theorem written_of_readDecimal? {text : List Char} {piece : Piece} (reads : readDecimal? text = some piece) :
    piece.WrittenAt ('\x60' :: text) := by
  rcases readDecimal?_cases text with ⟨_, nothing⟩ | ⟨count, started, within, small, _, found⟩
  · rw [nothing] at reads
    cases reads
  · rw [found] at reads
    cases reads
    have digit := leadingDigits_take (by omega : 10 ≤ 16) within
    have short := leadingDigits_length_le 10 3 text
    have length := digit.length_eq
    rw [List.length_take, Nat.min_eq_left within] at length
    refine ⟨'\x60' :: text.take count, ?_, ?_, ?_⟩
    · exact List.cons_prefix_cons.mpr ⟨rfl, List.take_prefix _ _⟩
    · rw [List.length_cons, ← length, Nat.add_comm]
    · rw [toNat_ofNat_code (by omega), numeralValue_eq_ofDigits]
      rw [numeralValue_eq_ofDigits] at small
      refine .decimal ⟨digit, ?_, by omega⟩ small
      rw [← List.length_pos_iff, ← length]
      exact started

theorem absorbs_of_decimal {values : List Nat} {digits : List Char} (written : Figures 10 3 values digits)
    (small : Nat.ofDigits 10 values.reverse ≤ 255) (tail : List Char) :
    ∃ piece, readDecimal? (digits ++ tail) = some piece ∧
      piece.Absorbs ('\x60' :: digits) (Nat.ofDigits 10 values.reverse) := by
  have length := written.digit.length_eq
  have started := List.length_pos_iff.mpr written.started
  obtain ⟨more, read⟩ := leadingDigits_append (by omega : 10 ≤ 16) written.digit 3 written.short tail
  rw [← numeralValue_eq_ofDigits] at small ⊢
  rcases readDecimal?_cases (digits ++ tail) with ⟨nothing, _⟩ | ⟨count, _, _, _, reach, found⟩
  · rw [read, List.append_eq_nil_iff] at nothing
    rw [nothing.1, List.length_nil] at length
    omega
  · refine ⟨_, found, ?_⟩
    rw [read] at reach ⊢
    rw [List.length_append] at reach
    -- The third digit is given up only for a value that the word itself does not reach.
    have kept : values.length ≤ count := by
      cases more with
      | nil =>
          rw [List.append_nil] at reach
          omega
      | cons value more =>
          rw [List.length_cons] at reach
          omega
    rcases Nat.lt_or_eq_of_le kept with shorter | same
    · left
      simp only [List.length_cons]
      omega
    · right
      rw [← same, List.take_left]
      refine ⟨?_, (toNat_ofNat_code (by omega)).symm⟩
      simp only [List.length_cons]
      omega

theorem ofLetter?_of_isDigit {value : Nat} {c : Char} (digit : IsDigit 10 value c) :
    Radix.ofLetter? c = none := by
  have found := (digit?_eq_some_iff (by omega)).mpr digit
  unfold Radix.ofLetter?
  split
  · next letter => rcases letter with rfl | rfl <;> cases found
  · split
    · next letter => rcases letter with rfl | rfl <;> cases found
    · rfl

theorem toNat_lt_of_hidden {c : Char} (hidden : c ∈ ['@', '#', '&']) : c.toNat < 256 := by
  simp only [List.mem_cons, List.not_mem_nil, or_false] at hidden
  rcases hidden with rfl | rfl | rfl
  · decide
  · decide
  · decide

theorem written_of_readEscape {text : List Char} {piece : Piece} (reads : readEscape text = .ok piece) :
    piece.WrittenAt ('\x60' :: text) := by
  unfold readEscape at reads
  split at reads
  · cases reads
  · next c rest =>
      split at reads
      · next radix _ announced => exact written_of_readNumeral announced reads
      · next decimal =>
          cases reads
          exact written_of_readDecimal? decimal
      · split at reads
        · next masked =>
            have hidden := (isMasked_iff c).mp masked
            cases reads
            refine ⟨['\x60', c], ⟨rest, rfl⟩, rfl, ?_⟩
            rw [toNat_ofNat_code (toNat_lt_of_hidden hidden)]
            exact .masked hidden
        · cases reads

/-- The symbol at a character: its stand-in, its spelling, or a spelling that goes on behind it. -/
theorem symbolAt?_cases (c : Char) (rest : List Char) :
    (∃ symbol ∈ symbols, symbol.standIn = some c ∧ symbolAt? (c :: rest) = some ⟨symbol.code, 1⟩) ∨
    ¬IsStandIn c ∧
      ((∃ symbol ∈ symbols, symbol.spelling = [c] ∧ symbolAt? (c :: rest) = some ⟨symbol.code, 1⟩) ∨
      ¬IsSpelling [c] ∧
        (composite.spelling <+: c :: rest ∧ symbolAt? (c :: rest) = some ⟨composite.code, 2⟩ ∨
        symbolAt? (c :: rest) = none)) := by
  simp only [symbolAt?, find?_composite]
  cases standIn : symbols.find? fun symbol => symbol.standIn == some c with
  | some symbol =>
      have typed := List.find?_some standIn
      exact .inl ⟨symbol, List.mem_of_find?_eq_some standIn, by simpa using typed, rfl⟩
  | none =>
      refine .inr ⟨?_, ?_⟩
      · rintro ⟨symbol, declared, typed⟩
        have other := List.find?_eq_none.mp standIn symbol declared
        simp [typed] at other
      · cases spelling : symbols.find? fun symbol => symbol.spelling == [c] with
        | some symbol =>
            have spelled := List.find?_some spelling
            exact .inl ⟨symbol, List.mem_of_find?_eq_some spelling, by simpa using spelled, rfl⟩
        | none =>
            refine .inr ⟨?_, ?_⟩
            · rintro ⟨symbol, declared, spelled⟩
              have other := List.find?_eq_none.mp spelling symbol declared
              simp [spelled] at other
            · split
              · next whole => exact .inl ⟨List.isPrefixOf_iff_prefix.mp whole, rfl⟩
              · exact .inr rfl

theorem readPiece_of_escape {rest : List Char} {piece : Piece} (found : readEscape rest = .ok piece) :
    readPiece '\x60' rest = .ok piece := by
  simp only [readPiece, introducer, if_true, found]

theorem readPiece_of_symbol {c : Char} {rest : List Char} {piece : Piece} (unescaped : c ≠ '\x60')
    (found : symbolAt? (c :: rest) = some piece) : readPiece c rest = .ok piece := by
  simp only [readPiece, introducer, unescaped, if_false, found]

theorem readPiece_of_plain {c : Char} {rest : List Char} (unescaped : c ≠ '\x60')
    (nothing : symbolAt? (c :: rest) = none) :
    readPiece c rest =
      if c.toNat < 256 then .ok ⟨UInt8.ofNat c.toNat, 1⟩ else .error (.unsupported c) := by
  by_cases small : c.toNat < 256
  · simp only [readPiece, introducer, unescaped, if_false, nothing, plainCode?, small, if_true]
  · simp only [readPiece, introducer, unescaped, if_false, nothing, plainCode?, small]

theorem written_of_readPiece {c : Char} {rest : List Char} {piece : Piece}
    (reads : readPiece c rest = .ok piece) : piece.WrittenAt (c :: rest) := by
  by_cases escape : c = '\x60'
  · subst escape
    cases found : readEscape rest with
    | error defect => simp [readPiece, introducer, found] at reads
    | ok code =>
        rw [readPiece_of_escape found] at reads
        cases reads
        exact written_of_readEscape found
  · have single : [c] <+: c :: rest := ⟨rest, rfl⟩
    rcases symbolAt?_cases c rest with ⟨symbol, declared, typed, found⟩ | ⟨noStandIn, others⟩
    · rw [readPiece_of_symbol escape found] at reads
      cases reads
      exact ⟨[c], single, rfl, .standIn declared typed⟩
    · rcases others with ⟨symbol, declared, spelled, found⟩ | ⟨noSpelling, ⟨whole, found⟩ | nothing⟩
      · rw [readPiece_of_symbol escape found] at reads
        cases reads
        refine ⟨symbol.spelling, by rwa [spelled], by rw [spelled]; rfl, .spelling declared ?_⟩
        intro d same
        rw [spelled] at same
        cases same
        exact noStandIn
      · rw [readPiece_of_symbol escape found] at reads
        cases reads
        refine ⟨composite.spelling, whole, rfl, .spelling (by decide) ?_⟩
        intro d same
        cases same
      · rw [readPiece_of_plain escape nothing] at reads
        split at reads
        · next small =>
            cases reads
            refine ⟨[c], single, rfl, ?_⟩
            rw [toNat_ofNat_code small]
            exact .plain (by omega) escape noStandIn noSpelling
        · cases reads

theorem symbolAt?_of_alone {c : Char} {piece : Piece} (found : symbolAt? [c] = some piece)
    (rest : List Char) : symbolAt? (c :: rest) = some piece := by
  have alone : composite.spelling.isPrefixOf [c] = false := by
    simp [composite, List.isPrefixOf]
  simp only [symbolAt?, find?_composite, alone, Bool.false_eq_true, if_false, Option.map_none,
    Option.orElse_eq_orElse, Option.orElse_eq_or, Option.or_none] at found ⊢
  rw [← Option.or_assoc, found, Option.some_or]

theorem absorbs_of_form {symbol : Symbol} {word rest : List Char} {c : Char} (declared : symbol ∈ symbols)
    (typed : word ∈ symbol.forms) (reach : word <+: c :: rest) :
    ∃ piece, readPiece c rest = .ok piece ∧ piece.Absorbs word symbol.code.toNat := by
  rcases form_cases symbol declared word typed with ⟨single, plain, _, found⟩ | ⟨rfl, same⟩
  · obtain ⟨d, rfl⟩ := List.length_eq_one_iff.mp single
    obtain ⟨rfl, _⟩ := List.cons_prefix_cons.mp reach
    simp only [List.mem_singleton] at plain
    exact ⟨_, readPiece_of_symbol (Ne.symm plain) (symbolAt?_of_alone found rest), .inr ⟨rfl, rfl⟩⟩
  · obtain ⟨tail, split⟩ := reach
    cases split
    exact ⟨_, readPiece_composite tail, .inr ⟨rfl, by rw [same]⟩⟩

/-- Whatever word a text starts with, the piece read there is at least as wide. -/
theorem absorbs_of_denotes {word rest : List Char} {value : Nat} {c : Char} (denotes : Denotes word value)
    (reach : word <+: c :: rest) :
    ∃ piece, readPiece c rest = .ok piece ∧ piece.Absorbs word value := by
  cases denotes with
  | @numeral letter base most values digits announced written =>
      obtain ⟨radix, found, rfl, rfl⟩ := mem_announcements_iff.mp announced
      obtain ⟨rfl, tail, rfl⟩ := List.cons_prefix_cons.mp reach
      obtain ⟨piece, reads, absorbs⟩ := absorbs_of_figures found written tail
      exact ⟨piece, readPiece_of_escape reads, absorbs⟩
  | @decimal values digits written small =>
      obtain ⟨rfl, tail, rfl⟩ := List.cons_prefix_cons.mp reach
      obtain ⟨piece, found, absorbs⟩ := absorbs_of_decimal written small tail
      refine ⟨piece, readPiece_of_escape ?_, absorbs⟩
      cases written.digit with
      | nil => exact absurd rfl written.started
      | cons first later =>
          rw [List.cons_append] at found ⊢
          simp only [readEscape, ofLetter?_of_isDigit first, found]
  | @masked d hidden =>
      obtain ⟨rfl, tail, rfl⟩ := List.cons_prefix_cons.mp reach
      have code := toNat_ofNat_code (toNat_lt_of_hidden hidden)
      have found := readEscape_masked d tail ((isMasked_iff d).mpr hidden)
      exact ⟨_, readPiece_of_escape found, .inr ⟨rfl, code.symm⟩⟩
  | @standIn symbol d declared typed =>
      exact absorbs_of_form declared (by simp [Symbol.forms, typed]) reach
  | @spelling symbol declared other =>
      exact absorbs_of_form declared (by simp [Symbol.forms]) reach
  | @plain d small unescaped noStandIn noSpelling =>
      obtain ⟨rfl, _⟩ := List.cons_prefix_cons.mp reach
      rcases symbolAt?_cases d rest with ⟨symbol, declared, typed, _⟩ | ⟨_, others⟩
      · exact absurd ⟨symbol, declared, typed⟩ noStandIn
      · rcases others with ⟨symbol, declared, spelled, _⟩ | ⟨_, ⟨_, found⟩ | nothing⟩
        · exact absurd ⟨symbol, declared, spelled⟩ noSpelling
        · exact ⟨_, readPiece_of_symbol unescaped found, .inl (by simp)⟩
        · have own := readPiece_of_plain unescaped nothing
          rw [if_pos (by omega)] at own
          exact ⟨_, own, .inr ⟨rfl, (toNat_ofNat_code (by omega)).symm⟩⟩

theorem readPiece_eq_ok_iff (c : Char) (rest : List Char) (piece : Piece) :
    readPiece c rest = .ok piece ↔
      ∃ word, Longest (c :: rest) word ∧ word.length = piece.width ∧ Denotes word piece.code.toNat := by
  constructor
  · intro reads
    obtain ⟨word, reach, width, denotes⟩ := written_of_readPiece reads
    refine ⟨word, ⟨reach, ⟨_, denotes⟩, ?_⟩, width, denotes⟩
    intro other value otherReach otherDenotes
    obtain ⟨found, readsAgain, absorbs⟩ := absorbs_of_denotes otherDenotes otherReach
    rw [reads] at readsAgain
    cases readsAgain
    rcases absorbs with shorter | ⟨same, _⟩
    · omega
    · omega
  · rintro ⟨word, longest, width, denotes⟩
    obtain ⟨found, reads, absorbs⟩ := absorbs_of_denotes denotes longest.reach
    obtain ⟨other, reach, otherWidth, otherDenotes⟩ := written_of_readPiece reads
    have most := longest.longest other _ reach otherDenotes
    rcases absorbs with shorter | ⟨same, value⟩
    · omega
    · have code := UInt8.toNat_inj.mp value
      have whole : found = piece := by
        cases found
        cases piece
        simp_all
      rw [reads, whole]

theorem problem_of_readPiece {c : Char} {rest : List Char} {problem : Problem}
    (failed : readPiece c rest = .error problem) :
    c = '\x60' ∧ (∃ defect, problem = .malformed defect) ∨
      c ≠ '\x60' ∧ problem = .unsupported c := by
  unfold readPiece at failed
  split at failed
  · next escape =>
      split at failed
      · cases failed
      · next defect _ =>
          cases failed
          exact .inl ⟨escape, defect, rfl⟩
  · next unescaped =>
      split at failed
      · cases failed
      · cases failed
      · cases failed
        exact .inr ⟨unescaped, rfl⟩

theorem exists_problem_iff (c : Char) (rest : List Char) :
    (∃ problem, readPiece c rest = .error problem) ↔ NoWord (c :: rest) := by
  constructor
  · rintro ⟨problem, failed⟩ word value reach denotes
    obtain ⟨piece, reads, _⟩ := absorbs_of_denotes denotes reach
    rw [failed] at reads
    cases reads
  · intro none
    cases reads : readPiece c rest with
    | error problem => exact ⟨problem, rfl⟩
    | ok piece =>
        obtain ⟨word, reach, _, denotes⟩ := written_of_readPiece reads
        exact absurd denotes (none word _ reach)

theorem malformed_iff (c : Char) (rest : List Char) :
    (∃ defect, readPiece c rest = .error (.malformed defect)) ↔ c = '\x60' ∧ NoWord (c :: rest) := by
  rw [← exists_problem_iff]
  constructor
  · rintro ⟨defect, failed⟩
    rcases problem_of_readPiece failed with ⟨escape, _⟩ | ⟨_, other⟩
    · exact ⟨escape, _, failed⟩
    · cases other
  · rintro ⟨escape, problem, failed⟩
    rcases problem_of_readPiece failed with ⟨_, defect, rfl⟩ | ⟨unescaped, _⟩
    · exact ⟨defect, failed⟩
    · exact absurd escape unescaped

theorem unsupported_iff (c strange : Char) (rest : List Char) :
    readPiece c rest = .error (.unsupported strange) ↔
      c = strange ∧ strange ≠ '\x60' ∧ NoWord (c :: rest) := by
  rw [← exists_problem_iff]
  constructor
  · intro failed
    rcases problem_of_readPiece failed with ⟨_, defect, other⟩ | ⟨unescaped, same⟩
    · cases other
    · cases same
      exact ⟨rfl, unescaped, _, failed⟩
  · rintro ⟨rfl, unescaped, problem, failed⟩
    rcases problem_of_readPiece failed with ⟨escape, _⟩ | ⟨_, rfl⟩
    · exact absurd escape unescaped
    · exact failed

theorem Denotes.ne_nil {word : List Char} {value : Nat} (denotes : Denotes word value) : word ≠ [] := by
  have spelled : ∀ symbol ∈ symbols, symbol.spelling ≠ [] := by decide
  cases denotes with
  | spelling declared _ => exact spelled _ declared
  | _ => exact List.cons_ne_nil _ _

/-- A word stands for one code only. -/
theorem Denotes.unique {word : List Char} {value other : Nat} (denotes : Denotes word value)
    (again : Denotes word other) : value < 256 ∧ value = other := by
  obtain ⟨c, rest, rfl⟩ := List.exists_cons_of_ne_nil denotes.ne_nil
  obtain ⟨piece, reads, absorbs⟩ := absorbs_of_denotes denotes List.prefix_rfl
  obtain ⟨found, readsAgain, absorbsAgain⟩ := absorbs_of_denotes again List.prefix_rfl
  rw [reads] at readsAgain
  cases readsAgain
  obtain ⟨written, reach, width, _⟩ := written_of_readPiece reads
  have within := reach.length_le
  have bound := piece.code.toNat_lt
  rcases absorbs with longer | ⟨_, first⟩
  · omega
  · rcases absorbsAgain with longer | ⟨_, second⟩
    · omega
    · omega

theorem readAt?_of_drop {text rest : List Char} {position : Nat} {c : Char}
    (ahead : text.drop position = c :: rest) :
    text[position]? = some c ∧
      readAt? text position =
        some ((readPiece c rest).mapError fun problem => ⟨position, problem⟩) := by
  constructor
  · rw [← List.head?_drop, ahead, List.head?_cons]
  · simp only [readAt?, ahead]
    cases readPiece c rest with
    | error problem => rfl
    | ok piece => rfl

/-- Reading at a position takes the longest word for a code that stands there. It fails exactly if there
is none, and what it reports then depends on the character alone. -/
theorem readAt?_takes_longest (text : List Char) (position : Nat) :
    (∀ code width, readAt? text position = some (.ok ⟨code, width⟩) ↔
      ∃ word, Longest (text.drop position) word ∧ word.length = width ∧ Denotes word code.toNat) ∧
    ((∃ defect, readAt? text position = some (.error ⟨position, .malformed defect⟩)) ↔
      text[position]? = some '\x60' ∧ NoWord (text.drop position)) ∧
    (∀ c, readAt? text position = some (.error ⟨position, .unsupported c⟩) ↔
      text[position]? = some c ∧ c ≠ '\x60' ∧ NoWord (text.drop position)) ∧
    (readAt? text position = none ↔ text.length ≤ position) ∧
    ∀ word value other, Denotes word value → Denotes word other → value < 256 ∧ value = other := by
  have words := fun word value other (denotes : Denotes word value) (again : Denotes word other) =>
    denotes.unique again
  cases ahead : text.drop position with
  | nil =>
      have past : text.length ≤ position := List.drop_eq_nil_iff.mp ahead
      have silent : readAt? text position = none := by simp only [readAt?, ahead]
      have absent : text[position]? = none := List.getElem?_eq_none past
      refine ⟨?_, by simp [silent, absent], by simp [silent, absent], by simp [silent, past], words⟩
      intro code width
      simp only [silent, reduceCtorEq, false_iff]
      rintro ⟨word, longest, _, denotes⟩
      exact denotes.ne_nil (List.prefix_nil.mp longest.reach)
  | cons c rest =>
      have inside : ¬text.length ≤ position := by
        rw [← List.drop_eq_nil_iff, ahead]
        exact List.cons_ne_nil _ _
      obtain ⟨character, reading⟩ := readAt?_of_drop ahead
      simp only [character, reading, Option.some.injEq]
      refine ⟨?_, ?_, ?_, by simp [inside], words⟩
      · intro code width
        rw [← readPiece_eq_ok_iff c rest ⟨code, width⟩]
        cases readPiece c rest with
        | error problem => simp [Except.mapError]
        | ok piece => simp [Except.mapError]
      · rw [← malformed_iff]
        cases readPiece c rest with
        | error problem => simp [Except.mapError]
        | ok piece => simp [Except.mapError]
      · intro strange
        rw [← unsupported_iff]
        cases readPiece c rest with
        | error problem => simp [Except.mapError]
        | ok piece => simp [Except.mapError]

theorem readAt?_takes_longest_third_digit :
    readAt? ['A', '\x60', '2', '5', '6'] 1 = some (.ok ⟨25, 3⟩) ∧
      Longest ['\x60', '2', '5', '6'] ['\x60', '2', '5'] ∧
      ∀ other, Denotes ['\x60', '2', '5'] other → 25 < 256 ∧ 25 = other := by
  have reading : readAt? ['A', '\x60', '2', '5', '6'] 1 = some (.ok ⟨25, 3⟩) := by cbv
  obtain ⟨word, longest, width, denotes⟩ :=
    ((readAt?_takes_longest ['A', '\x60', '2', '5', '6'] 1).1 25 3).mp reading
  have whole : word = ['\x60', '2', '5'] := by
    rw [List.prefix_iff_eq_take.mp longest.reach, width]
    simp
  subst whole
  have unique := (readAt?_takes_longest ['A', '\x60', '2', '5', '6'] 1).2.2.2.2
  exact ⟨reading, longest, fun other again => unique _ 25 other denotes again⟩

end Calculator.Alpha
