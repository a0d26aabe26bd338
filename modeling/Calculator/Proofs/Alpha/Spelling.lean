import Calculator.Alpha.Spelling
import Calculator.Proofs.Alpha.Reading

/-! Spelled codes read back as themselves, whatever text follows them. -/

namespace Calculator.Alpha

/-- The combining mark that makes one spelling out of an `x` and itself. -/
def macron : Char := '\u0304'

/-- The text does not change how the character in front of it is read. -/
def Detached (text : List Char) : Prop := text.head? ≠ some macron

def composite : Symbol := ⟨2, ['x', macron], some 'ẍ'⟩

theorem find?_composite (text : List Char) :
    (symbols.find? fun symbol => symbol.isComposite && symbol.spelling.isPrefixOf text) =
      if composite.spelling.isPrefixOf text then some composite else none := by
  have only : symbols.filter Symbol.isComposite = [composite] := by decide
  have filtered : (symbols.filter Symbol.isComposite).find?
      (fun symbol => symbol.spelling.isPrefixOf text) =
        symbols.find? fun symbol => symbol.isComposite && symbol.spelling.isPrefixOf text := by
    simp only [List.find?_filter, Bool.decide_and, Bool.decide_eq_true]
  rw [← filtered, only, List.find?_singleton]

theorem symbolAt?_detached (c : Char) (text : List Char) (detached : Detached text) :
    symbolAt? (c :: text) = symbolAt? [c] := by
  have apart : composite.spelling.isPrefixOf (c :: text) = false := by
    cases text with
    | nil => simp [composite, List.isPrefixOf]
    | cons d rest =>
        simp only [Detached, List.head?_cons, ne_eq, Option.some.injEq] at detached
        simp [composite, List.isPrefixOf, Ne.symm detached]
  have alone : composite.spelling.isPrefixOf [c] = false := by
    simp [composite, List.isPrefixOf]
  simp only [symbolAt?, find?_composite, apart, alone]

theorem readPiece_detached (c : Char) (text : List Char) (plain : c ≠ introducer)
    (detached : Detached text) : readPiece c text = readPiece c [] := by
  simp only [readPiece, plain, if_false, symbolAt?_detached c text detached]

theorem readPiece_composite (text : List Char) :
    readPiece 'x' (macron :: text) = .ok ⟨composite.code, 2⟩ := by
  have lead : symbolAt? ('x' :: macron :: text) = some ⟨composite.code, 2⟩ := by
    have noStandIn : (symbols.find? fun symbol => symbol.standIn == some 'x') = none := by decide
    have noSpelling : (symbols.find? fun symbol => symbol.spelling == ['x']) = none := by decide
    have whole : composite.spelling.isPrefixOf ('x' :: macron :: text) = true := by
      simp [composite]
    simp only [symbolAt?, find?_composite, noStandIn, noSpelling, whole]
    rfl
  have plain : ('x' : Char) ≠ introducer := by decide
  simp only [readPiece, plain, if_false, lead]

theorem digit?_hexDigit : ∀ value < 16, digit? 16 (hexDigit value) = some value := by decide

theorem readEscape_hexadecimal (code : UInt8) (text : List Char) :
    readEscape ('x' :: hexDigit (code.toNat / 16) :: hexDigit (code.toNat % 16) :: text) =
      .ok ⟨code, 4⟩ := by
  have bound := code.toNat_lt
  have high := digit?_hexDigit (code.toNat / 16) (by omega)
  have low := digit?_hexDigit (code.toNat % 16) (by omega)
  have value : numeralValue 16 [code.toNat / 16, code.toNat % 16] = code.toNat := by
    simp only [numeralValue, List.foldl_cons, List.foldl_nil]
    omega
  have letter : Radix.ofLetter? 'x' = some .hexadecimal := by decide
  simp [readEscape, letter, readNumeral, Radix.base, Radix.maxDigits, leadingDigits, high, low,
    value]

@[simp] theorem toNat_plainChar (code : UInt8) : (plainChar code).toNat = code.toNat := by
  have bound := code.toNat_lt
  have valid : code.toNat.isValidChar := Or.inl (by omega)
  simp only [plainChar, Char.ofNat, valid, dif_pos]
  rfl

theorem isMasked_iff (c : Char) : isMasked c = true ↔ c ∈ ['@', '#', '&'] := by
  have masked : symbols.filterMap Symbol.masked? = ['@', '#', '&'] := by decide
  rw [← masked, isMasked, List.any_eq_true, List.mem_filterMap]
  simp only [beq_iff_eq]

theorem readEscape_masked (c : Char) (text : List Char) (masked : isMasked c = true) :
    readEscape (c :: text) = .ok ⟨UInt8.ofNat c.toNat, 2⟩ := by
  have member : c = '@' ∨ c = '#' ∨ c = '&' := by simpa using (isMasked_iff c).mp masked
  have noLetter : Radix.ofLetter? c = none := by rcases member with rfl | rfl | rfl <;> rfl
  have noDigit : digit? 10 c = none := by rcases member with rfl | rfl | rfl <;> rfl
  have noDecimal : readDecimal? (c :: text) = none := by
    simp only [readDecimal?, leadingDigits, noDigit]
  simp only [readEscape, noLetter, noDecimal, masked, if_true]

/-- Wherever the spelling stands, the code is the first thing read, and the rest follows. -/
def ReadsAs (spelling : List Char) (code : UInt8) : Prop :=
  Detached spelling ∧ ∀ position text, Detached text →
    readingsFrom position (spelling ++ text) =
      .ok code :: readingsFrom (position + spelling.length) text

theorem readsAs_of_readPiece (c : Char) (rest : List Char) (code : UInt8) (start : c ≠ macron)
    (reads : ∀ text, Detached text → readPiece c (rest ++ text) = .ok ⟨code, rest.length + 1⟩) :
    ReadsAs (c :: rest) code := by
  constructor
  · simpa [Detached] using start
  · intro position text detached
    rw [List.cons_append, readingsFrom, reads text detached]
    simp

theorem readsAs_character (c : Char) (code : UInt8) (plain : c ≠ introducer) (start : c ≠ macron)
    (reads : readPiece c [] = .ok ⟨code, 1⟩) : ReadsAs [c] code := by
  apply readsAs_of_readPiece c [] code start
  intro text detached
  rw [List.nil_append, readPiece_detached c text plain detached]
  exact reads

theorem readsAs_composite : ReadsAs ['x', macron] composite.code :=
  readsAs_of_readPiece 'x' [macron] composite.code (by decide) fun text _ => readPiece_composite text

theorem readsAs_escape (rest : List Char) (code : UInt8)
    (reads : ∀ text, readEscape (rest ++ text) = .ok ⟨code, rest.length + 1⟩) :
    ReadsAs (introducer :: rest) code := by
  apply readsAs_of_readPiece introducer rest code (by decide)
  intro text _
  simp only [readPiece, if_true, reads text]

theorem readsAs_hexadecimal (code : UInt8) :
    ReadsAs [introducer, 'x', hexDigit (code.toNat / 16), hexDigit (code.toNat % 16)] code :=
  readsAs_escape _ code fun text => readEscape_hexadecimal code text

theorem readsAs_masked (code : UInt8) (masked : isMasked (plainChar code) = true) :
    ReadsAs [introducer, plainChar code] code := by
  apply readsAs_escape
  intro text
  rw [List.singleton_append, readEscape_masked _ text masked, toNat_plainChar, UInt8.ofNat_toNat]
  rfl

def Symbol.forms (symbol : Symbol) : List (List Char) :=
  symbol.spelling :: symbol.standIn.toList.map fun c => [c]

/-- Every form of a symbol is a single character that reads as the symbol, or the composite. -/
theorem form_cases : ∀ symbol ∈ symbols, ∀ form ∈ symbol.forms,
    (form.length = 1 ∧ introducer ∉ form ∧ macron ∉ form ∧ symbolAt? form = some ⟨symbol.code, 1⟩) ∨
      form = ['x', macron] ∧ symbol.code = composite.code := by
  decide

theorem readsAs_form (symbol : Symbol) (form : List Char) (declared : symbol ∈ symbols)
    (typed : form ∈ symbol.forms) : ReadsAs form symbol.code := by
  rcases form_cases symbol declared form typed with ⟨single, plain, start, found⟩ | ⟨rfl, same⟩
  · obtain ⟨c, rfl⟩ := List.length_eq_one_iff.mp single
    simp only [List.mem_singleton] at plain start
    apply readsAs_character c symbol.code (Ne.symm plain) (Ne.symm start)
    simp [readPiece, Ne.symm plain, found]
  · rw [same]
    exact readsAs_composite

theorem glyph_mem_forms (code : UInt8) (wantStandIn : Bool) (symbol : Symbol)
    (found : symbol? code = some symbol) : glyph code wantStandIn ∈ symbol.forms := by
  simp only [glyph, found, Symbol.forms]
  cases symbol.standIn with
  | none => simp
  | some c => cases wantStandIn <;> simp

theorem symbolAt?_width (c : Char) (piece : Piece) (found : symbolAt? [c] = some piece) :
    piece.width = 1 := by
  have alone : composite.spelling.isPrefixOf [c] = false := by
    simp [composite, List.isPrefixOf]
  simp only [symbolAt?, find?_composite, alone, Bool.false_eq_true, if_false, Option.map_none,
    Option.orElse_eq_orElse, Option.orElse_eq_or, Option.or_none, Option.or_eq_some_iff,
    Option.map_eq_some_iff] at found
  rcases found with ⟨_, _, rfl⟩ | ⟨_, _, _, rfl⟩
  · rfl
  · rfl

theorem readsAs_plainChar (code : UInt8) (undeclared : symbol? code = none)
    (clear : isShadowed code = false) : ReadsAs [plainChar code] code := by
  have bound := code.toNat_lt
  have plain : plainChar code ≠ introducer := by
    intro same
    have value : code = 96 := UInt8.toNat_inj.mp (by rw [← toNat_plainChar, same]; rfl)
    subst value
    exact absurd undeclared (by decide)
  have start : plainChar code ≠ macron := by
    intro same
    have value : code.toNat = macron.toNat := by rw [← toNat_plainChar, same]
    have large : 256 ≤ macron.toNat := by decide
    omega
  have own : plainCode? (plainChar code) = some code := by
    simp [plainCode?, bound]
  apply readsAs_character _ code plain start
  simp only [isShadowed, undeclared, Option.isNone_none, Bool.true_and] at clear
  simp only [readPiece, plain, if_false]
  cases found : symbolAt? [plainChar code] with
  | none => simp only [own]
  | some piece =>
      have width := symbolAt?_width _ piece found
      have same : piece.code = code := by simpa [found] using clear
      rw [← same, ← width]

/-- A code is spelled as a form of its symbol, behind the introducer, as a numeral or as it is. -/
theorem spell_cases (code : UInt8) (wantStandIn : Bool) :
    (∃ symbol ∈ symbols, symbol.code = code ∧ spell code wantStandIn ∈ symbol.forms) ∨
    (isMasked (plainChar code) = true ∧ spell code wantStandIn = [introducer, plainChar code]) ∨
    spell code wantStandIn =
      [introducer, 'x', hexDigit (code.toNat / 16), hexDigit (code.toNat % 16)] ∨
    (symbol? code = none ∧ isShadowed code = false ∧ spell code wantStandIn = [plainChar code]) := by
  unfold spell
  cases found : symbol? code with
  | some symbol =>
      have declared : symbol ∈ symbols := List.mem_of_find?_eq_some found
      have same : symbol.code = code := by simpa using List.find?_some found
      exact .inl ⟨symbol, declared, same, glyph_mem_forms code wantStandIn symbol found⟩
  | none =>
      right
      by_cases masked : isMasked (plainChar code) = true
      · exact .inl ⟨masked, by simp [masked]⟩
      · right
        cases shadowed : isShadowed code with
        | true => exact .inl (by simp [masked])
        | false => exact .inr ⟨rfl, rfl, by simp [masked]⟩

theorem readsAs_spell (code : UInt8) (wantStandIn : Bool) :
    ReadsAs (spell code wantStandIn) code := by
  rcases spell_cases code wantStandIn with ⟨symbol, declared, same, typed⟩ | ⟨masked, spelled⟩ |
    spelled | ⟨undeclared, clear, spelled⟩
  · rw [← same] at typed ⊢
    exact readsAs_form symbol _ declared typed
  · rw [spelled]
    exact readsAs_masked code masked
  · rw [spelled]
    exact readsAs_hexadecimal code
  · rw [spelled]
    exact readsAs_plainChar code undeclared clear

theorem Detached.append {first second : List Char} (head : Detached first) (tail : Detached second) :
    Detached (first ++ second) := by
  cases first with
  | nil => exact tail
  | cons c rest => simpa [Detached] using head

theorem detached_flatMap {α : Type} (spelling : α → List Char) (items : List α)
    (starts : ∀ item ∈ items, Detached (spelling item)) : Detached (items.flatMap spelling) := by
  induction items with
  | nil => simp [Detached]
  | cons item items ih =>
      rw [List.flatMap_cons]
      exact (starts item (by simp)).append (ih fun other member => starts other (by simp [member]))

theorem readingsFrom_spelled {α : Type} (spelling : α → List Char) (code : α → UInt8)
    (items : List α) (reads : ∀ item ∈ items, ReadsAs (spelling item) (code item))
    (position : Nat) (text : List Char) (detached : Detached text) :
    readingsFrom position (items.flatMap spelling ++ text) =
      (items.map code).map .ok ++ readingsFrom (position + (items.flatMap spelling).length) text := by
  induction items generalizing position with
  | nil => simp
  | cons item items ih =>
      have later : ∀ other ∈ items, ReadsAs (spelling other) (code other) :=
        fun other member => reads other (by simp [member])
      -- No spelling starts with the macron, so none is changed by the one that comes next.
      have apart : Detached (items.flatMap spelling ++ text) :=
        (detached_flatMap spelling items fun other member => (later other member).1).append detached
      rw [List.flatMap_cons, List.append_assoc, (reads item (by simp)).2 position _ apart, ih later]
      simp [Nat.add_assoc]

theorem encode_spelled {α : Type} (spelling : α → List Char) (code : α → UInt8) (items : List α)
    (reads : ∀ item ∈ items, ReadsAs (spelling item) (code item))
    (text : List Char) (detached : Detached text) :
    encode (items.flatMap spelling ++ text) =
      ((encode text).mapError (ReadError.shift (items.flatMap spelling).length)).map
        (items.map code ++ ·) := by
  rw [encode, readings, readingsFrom_spelled spelling code items reads 0 text detached, Nat.zero_add,
    collect_resumed]

def spellEach (codes : List (UInt8 × Bool)) : List Char :=
  codes.flatMap fun entry => spell entry.1 entry.2

/-- Reading undoes spelling in any context: the codes come back in front of what the text behind them
gives, and an error of that text only moves. -/
theorem encode_spellEach_append (codes : List (UInt8 × Bool)) (text : List Char)
    (detached : text.head? ≠ some '\u0304') :
    (∀ rest, encode text = .ok rest →
      encode (spellEach codes ++ text) = .ok (codes.map Prod.fst ++ rest)) ∧
    (∀ error, encode text = .error error →
      encode (spellEach codes ++ text) = .error (error.shift (spellEach codes).length) ∧
      (error.shift (spellEach codes).length).offending =
        error.offending + (spellEach codes).length) ∧
    ∀ payload wantStandIn, encode (spellAll payload wantStandIn) = .ok payload := by
  have context := encode_spelled (fun entry : UInt8 × Bool => spell entry.1 entry.2) Prod.fst codes
    (fun entry _ => readsAs_spell entry.1 entry.2) text detached
  refine ⟨?_, ?_, ?_⟩
  · intro rest encoded
    rw [encoded] at context
    exact context
  · intro error failed
    rw [failed] at context
    exact ⟨context, error.offending_shift _⟩
  · intro payload wantStandIn
    have whole := encode_spelled (fun code => spell code wantStandIn) id payload
      (fun code _ => readsAs_spell code wantStandIn) [] (by simp [Detached])
    have empty : encode [] = .ok [] := by simp [encode, readings, readingsFrom, collect]
    rw [List.append_nil, List.map_id, empty] at whole
    simpa [spellAll, Except.mapError, Except.map] using whole

theorem encode_spellEach_append_unfinished :
    encode (spellEach [(2, false), (64, true), (196, false), (120, true)] ++ ['A', '\x60', 'q']) =
        .error ⟨10, .malformed .unknownFollower⟩ ∧
      encode (spellEach [(2, false), (64, true), (196, false), (120, true)] ++ ['A']) =
        .ok [2, 64, 196, 120, 65] := by
  have unfinished : encode ['A', '\x60', 'q'] = .error ⟨1, .malformed .unknownFollower⟩ := by cbv
  have letter : encode ['A'] = .ok [65] := by cbv
  have length : (spellEach [(2, false), (64, true), (196, false), (120, true)]).length = 9 := by decide
  have failure := (encode_spellEach_append [(2, false), (64, true), (196, false), (120, true)]
    ['A', '\x60', 'q'] (by decide)).2.1 _ unfinished
  have success := (encode_spellEach_append [(2, false), (64, true), (196, false), (120, true)]
    ['A'] (by decide)).1 _ letter
  rw [length] at failure
  exact ⟨failure.1, success⟩

end Calculator.Alpha
