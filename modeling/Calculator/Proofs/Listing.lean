import Mathlib
import Calculator.Listing

/-! Looking up lines, characters and spans in a listing. -/

namespace Calculator

theorem length_splitOn (text : List Char) : (text.splitOn '\n').length = text.count '\n' + 1 := by
  induction text with
  | nil => simp
  | cons c text ih =>
      rw [List.splitOn_cons_eq_if_modifyHead]
      by_cases newline : c = '\n'
      · simp [newline, ih]
      · simp [newline, ih]

structure Pieces (text : List Char) (pieces : List (List Char)) : Prop where
  joined : ['\n'].intercalate pieces = text
  started : pieces ≠ []
  single : ∀ piece ∈ pieces, '\n' ∉ piece

theorem newline_not_mem_splitOn (text : List Char) : ∀ piece ∈ text.splitOn '\n', '\n' ∉ piece := by
  induction text with
  | nil => simp
  | cons c text ih =>
      obtain ⟨first, more, shape⟩ := List.exists_cons_of_ne_nil (List.splitOn_ne_nil '\n' text)
      rw [List.splitOn_cons_eq_if_modifyHead]
      rw [shape] at ih ⊢
      simp only [List.forall_mem_cons] at ih
      by_cases newline : c = '\n'
      · simpa [newline] using ih
      · simpa [newline, Ne.symm newline] using ih

theorem pieces_splitOn (text : List Char) : Pieces text (text.splitOn '\n') :=
  ⟨List.intercalate_splitOn '\n', List.splitOn_ne_nil '\n' text, newline_not_mem_splitOn text⟩

def LineOf (piece line : List Char) : Prop :=
  piece = line ++ ['\r'] ∨ piece = line ∧ ¬['\r'] <:+ piece

namespace Listing

theorem dropReturn_eq_iff {piece line : List Char} : dropReturn piece = line ↔ LineOf piece line := by
  unfold dropReturn LineOf
  split
  · next returned =>
      obtain ⟨shorter, rfl⟩ := List.getLast?_eq_some_iff.mp returned
      simp
  · next plain =>
      have unended : ¬['\r'] <:+ piece := by
        rintro ⟨shorter, rfl⟩
        simp at plain
      have other : piece ≠ line ++ ['\r'] := by
        rintro rfl
        simp at plain
      simp [unended, other]

theorem line?_eq_some_iff {listing : Listing} {number : UInt32} {line : List Char} :
    listing.line? number = some line ↔ 1 ≤ number.toNat ∧ listing.lines[number.toNat - 1]? = some line := by
  unfold line?
  cases number.toNat with
  | zero => simp
  | succ index => simp

theorem line?_eq_none_iff {listing : Listing} {number : UInt32} :
    listing.line? number = none ↔ number.toNat = 0 ∨ listing.lineCount < number.toNat := by
  unfold line? lineCount
  cases number.toNat with
  | zero => simp
  | succ index => simp

theorem charAt?_of_line {listing : Listing} {span : Span} {chars : List Char}
    (found : listing.line? span.startLine = some chars) (started : 1 ≤ span.startColumn.toNat) :
    listing.charAt? span = chars[span.startColumn.toNat - 1]? := by
  obtain ⟨index, column⟩ : ∃ index, span.startColumn.toNat = index + 1 :=
    ⟨span.startColumn.toNat - 1, by omega⟩
  simp [charAt?, found, column]

theorem charAt?_eq_none_iff {listing : Listing} {span : Span} :
    listing.charAt? span = none ↔ listing.line? span.startLine = none ∨
      ∃ chars, listing.line? span.startLine = some chars ∧
        (span.startColumn.toNat = 0 ∨ chars.length < span.startColumn.toNat) := by
  cases found : listing.line? span.startLine with
  | none =>
      unfold charAt?
      cases span.startColumn.toNat with
      | zero => simp
      | succ index => simp [found]
  | some chars =>
      cases column : span.startColumn.toNat with
      | zero => simp [charAt?, column]
      | succ index =>
          rw [charAt?_of_line found (by omega), column]
          simp

structure Within (listing : Listing) (span : Span) : Prop where
  oneLine : span.startLine = span.endLine
  started : 1 ≤ span.startColumn.toNat
  ordered : span.startColumn.toNat ≤ span.endColumn.toNat
  inside : ∃ chars, listing.line? span.startLine = some chars ∧ span.endColumn.toNat ≤ chars.length

theorem covered?_of_within {listing : Listing} {span : Span} {chars : List Char}
    (found : listing.line? span.startLine = some chars) (short : chars.length < 2 ^ 32 - 1)
    (within : Within listing span) :
    listing.covered? span =
      some ((chars.take span.endColumn.toNat).drop (span.startColumn.toNat - 1)) := by
  obtain ⟨again, foundAgain, inside⟩ := within.inside
  obtain rfl : chars = again := by simpa [found] using foundAgain
  have started := within.started
  have ordered := within.ordered
  have limit : Span.limit = 2 ^ 32 - 1 := rfl
  have stop : min (span.endColumn.toNat + 1) Span.limit - 1 = span.endColumn.toNat := by omega
  obtain ⟨index, column⟩ : ∃ index, span.startColumn.toNat = index + 1 :=
    ⟨span.startColumn.toNat - 1, by omega⟩
  simp only [covered?]
  rw [if_pos ⟨within.oneLine.symm, UInt32.le_iff_toNat_le.mpr ordered⟩, found, column]
  simp only [stop, Nat.add_sub_cancel]
  rw [if_pos (by omega)]

theorem within_of_covered? {listing : Listing} {span : Span} {covered : List Char}
    (short : ∀ chars, listing.line? span.startLine = some chars → chars.length < 2 ^ 32 - 2)
    (found : listing.covered? span = some covered) : Within listing span := by
  unfold covered? at found
  split at found
  · next shape =>
      have ordered := UInt32.le_iff_toNat_le.mp shape.2
      split at found
      · next chars index known column =>
          have limit : Span.limit = 2 ^ 32 - 1 := rfl
          have bound := short chars known
          have most := span.endColumn.toNat_lt
          dsimp only at found
          split at found
          · next columns =>
              -- On a short line the column behind the last one is below the limit.
              exact ⟨shape.1.symm, by omega, ordered, chars, known, by omega⟩
          · cases found
      · cases found
  · cases found

def charsAt (listing : Listing) (number : UInt32) (first last : Nat) : List (Option Char) :=
  (List.range' first (last + 1 - first)).map fun column =>
    listing.charAt? (.point number (UInt32.ofNat column))

theorem map_some_eq_charsAt {listing : Listing} {number : UInt32} {chars : List Char} {first last : Nat}
    (found : listing.line? number = some chars) (started : 1 ≤ first) (inside : last ≤ chars.length)
    (bound : last < 2 ^ 32) :
    ((chars.take last).drop (first - 1)).map some = charsAt listing number first last := by
  apply List.ext_getElem?
  intro index
  rw [List.getElem?_map, List.getElem?_drop, charsAt, List.getElem?_map]
  by_cases early : index < last + 1 - first
  · have column : (UInt32.ofNat (first + index)).toNat = first + index :=
      UInt32.toNat_ofNat_of_lt' (by rw [UInt32.size]; omega)
    have held : listing.charAt? (.point number (UInt32.ofNat (first + index))) =
        chars[first - 1 + index]? := by
      rw [@charAt?_of_line listing (.point number _) chars found (by rw [Span.point, column]; omega)]
      rw [Span.point, column, Nat.sub_add_comm started]
    rw [List.getElem?_range' early, Nat.one_mul, Option.map_some, held,
      List.getElem?_take_of_lt (by omega), List.getElem?_eq_getElem (by omega), Option.map_some]
  · rw [List.getElem?_eq_none (by rw [List.length_take]; omega),
      List.getElem?_eq_none (by rw [List.length_range']; omega)]
    rfl

theorem covered?_eq_some_iff {listing : Listing} {span : Span}
    (short : ∀ chars, listing.line? span.startLine = some chars → chars.length < 2 ^ 32 - 2)
    (covered : List Char) :
    listing.covered? span = some covered ↔ Within listing span ∧ covered.map some =
      charsAt listing span.startLine span.startColumn.toNat span.endColumn.toNat := by
  constructor
  · intro found
    have within := within_of_covered? short found
    obtain ⟨chars, known, inside⟩ := within.inside
    rw [covered?_of_within known (Nat.lt_succ_of_lt (short chars known)) within] at found
    cases found
    exact ⟨within, map_some_eq_charsAt known within.started inside span.endColumn.toNat_lt⟩
  · rintro ⟨within, same⟩
    obtain ⟨chars, known, inside⟩ := within.inside
    rw [← map_some_eq_charsAt known within.started inside span.endColumn.toNat_lt] at same
    rw [covered?_of_within known (Nat.lt_succ_of_lt (short chars known)) within]
    exact congrArg some (List.map_injective_iff.mpr (Option.some_injective _) same).symm

theorem line?_ofText_eq_some_iff {text line : List Char} {number : UInt32} :
    (ofText text).line? number = some line ↔ 1 ≤ number.toNat ∧
      ∃ piece, (text.splitOn '\n')[number.toNat - 1]? = some piece ∧ LineOf piece line := by
  rw [line?_eq_some_iff, ofText, List.getElem?_map, Option.map_eq_some_iff]
  simp only [dropReturn_eq_iff]

/-- The lines of a text are what stands between its line feeds, each without one carriage return at
its end. A character is found at every column of a line and nowhere else, and a span has a text
exactly if it runs forward within one line: the characters found at its columns. -/
theorem lookups_exact (text : List Char)
    (short : ∀ chars ∈ (ofText text).lines, chars.length < 2 ^ 32 - 2) :
    (ofText text).lineCount = text.count '\n' + 1 ∧
      (∃ pieces, Pieces text pieces ∧ ∀ number line, (ofText text).line? number = some line ↔
        1 ≤ number.toNat ∧ ∃ piece, pieces[number.toNat - 1]? = some piece ∧ LineOf piece line) ∧
      (∀ number, (ofText text).line? number = none ↔
        number.toNat = 0 ∨ (ofText text).lineCount < number.toNat) ∧
      (∀ span covered, (ofText text).covered? span = some covered ↔
        Within (ofText text) span ∧ covered.map some =
          charsAt (ofText text) span.startLine span.startColumn.toNat span.endColumn.toNat) ∧
      (∀ span chars, (ofText text).line? span.startLine = some chars → 1 ≤ span.startColumn.toNat →
        (ofText text).charAt? span = chars[span.startColumn.toNat - 1]?) ∧
      ∀ span, (ofText text).charAt? span = none ↔ (ofText text).line? span.startLine = none ∨
        ∃ chars, (ofText text).line? span.startLine = some chars ∧
          (span.startColumn.toNat = 0 ∨ chars.length < span.startColumn.toNat) := by
  refine ⟨?_, ⟨text.splitOn '\n', pieces_splitOn text, ?_⟩, ?_, ?_, ?_, ?_⟩
  · rw [lineCount, ofText, List.length_map, length_splitOn]
  · exact fun number line => line?_ofText_eq_some_iff
  · exact fun number => line?_eq_none_iff
  · intro span covered
    apply covered?_eq_some_iff
    intro chars found
    exact short chars (List.mem_of_getElem? (line?_eq_some_iff.mp found).2)
  · exact fun span chars => charAt?_of_line
  · exact fun span => charAt?_eq_none_iff

theorem lookups_exact_double_return :
    let text := "é\n\naΣ\r\r".toList
    (∀ chars ∈ (ofText text).lines, chars.length < 2 ^ 32 - 2) ∧
      (ofText text).covered? ⟨3, 2, 3, 3⟩ = some ['Σ', '\r'] ∧
      (ofText text).covered? ⟨3, 2, 3, 4⟩ = none ∧ (ofText text).charAt? (.point 2 1) = none := by
  have short : ∀ chars ∈ (ofText "é\n\naΣ\r\r".toList).lines, chars.length < 2 ^ 32 - 2 := by decide
  obtain ⟨-, -, -, covered, -, outside⟩ := lookups_exact _ short
  refine ⟨short, ?_, ?_, ?_⟩
  · -- Only the second of the two carriage returns belongs to the end of the line.
    exact (covered _ _).mpr ⟨⟨rfl, by decide, by decide, ['a', 'Σ', '\r'], rfl, by decide⟩, by decide⟩
  · rw [Option.eq_none_iff_forall_ne_some]
    intro found known
    obtain ⟨chars, line, inside⟩ := ((covered _ found).mp known).1.inside
    obtain rfl : ['a', 'Σ', '\r'] = chars := Option.some.inj line
    exact absurd inside (by decide)
  · exact (outside _).mpr (.inr ⟨[], rfl, .inr (by decide)⟩)

end Listing

end Calculator
