import Calculator.Program
import Calculator.Proofs.Alpha.Quoting
import Calculator.Proofs.ByteCode.Text
import Calculator.Proofs.Numeral
import Calculator.Proofs.Statement

/-! Programs written out from what they mean, and compiled back. -/

namespace Calculator

open Statement TokenFeed

namespace ByteCode

theorem text_quotedPayload {placement : Placement} {wantStandIn : Bool} {payload : List UInt8}
    {token : Token} (kind : token.kind = .text (.ofList (Alpha.quotedPayload wantStandIn payload)))
    (fits : payload.length ≤ placement.room) :
    text placement token = .ok (frame (placement.mark ++ payload)) := by
  simp only [text, kind, String.toList_ofList, Alpha.readings_quotedPayload,
    pack_map_ok _ payload fits]

theorem number_of_number {word : List Char} {token : Token} (kind : token.kind = .number (.ofList word))
    (wellFormed : Numeral.Number word) : number token = .ok (word.map Numeral.byteOf) := by
  have coded := Numeral.number_of_isNumeric kind (by simpa using wellFormed.isNumeric)
  rwa [String.toList_ofList] at coded

end ByteCode

inductive Item
  | text (payload : List UInt8) (fits : payload.length ≤ 15)
  | append (payload : List UInt8) (fits : payload.length ≤ 14)
  | number (lexeme : List Char) (wellFormed : Numeral.Number lexeme)

namespace Item

def write (wantStandIn : Bool) : Item → List Char
  | text payload _ => '"' :: Alpha.quotedPayload wantStandIn payload ++ ['"']
  | append payload _ => '>' :: '"' :: Alpha.quotedPayload wantStandIn payload ++ ['"']
  | number lexeme _ => lexeme

def byteCode : Item → List UInt8
  | text payload _ => (0xf0 + UInt8.ofNat payload.length) :: payload
  | append payload _ => (0xf1 + UInt8.ofNat payload.length) :: 0x7f :: payload
  | number lexeme _ => lexeme.map Numeral.byteOf

theorem write_ne_nil (wantStandIn : Bool) (item : Item) : item.write wantStandIn ≠ [] := by
  cases item with
  | text payload fits => simp [write]
  | append payload fits => simp [write]
  | number lexeme wellFormed => exact wellFormed.ne_nil

end Item

namespace Lexeme

theorem ofQuoted_of_quotable {content : List Char} (quotable : Alpha.Quotable content)
    (tail : List Char) :
    ofQuoted (content ++ '"' :: tail) = ⟨'"' :: content ++ ['"'], .text (.ofList content), none⟩ := by
  have kept : ∀ c ∈ content, (c != '"' && c != '\n') = true := by
    intro c member
    have noQuote : c ≠ '"' := fun same => quotable.1 (same ▸ member)
    have noNewline : c ≠ '\n' := fun same => quotable.2 (same ▸ member)
    simp [noQuote, noNewline]
  simp [ofQuoted, List.takeWhile_append_of_pos kept, List.dropWhile_append_of_pos kept]

theorem ofWord_of_number {word : List Char} (number : Numeral.Number word) :
    ofWord true word = ⟨word, .number (.ofList word), none⟩ := by
  simp [ofWord, Numeral.isNumeral_of_number number]

theorem read_of_number {c : Char} {word rest tail : List Char} (number : Numeral.Number word)
    (lineEnd : AtLineEnd tail) (starts : c :: rest = word ++ tail) (member : c ∈ word) :
    read true c rest = ⟨word, .number (.ofList word), none⟩ := by
  have whole : (c :: rest).takeWhile (fun c => !endsWord c) = word := by
    have kept : ∀ c ∈ word, (!endsWord c) = true := by
      intro c member
      simp [(number.isNumeric c member).endsWord_eq]
    rw [starts, takeWhile_append_lineEnd (by decide) word lineEnd]
    exact List.takeWhile_eq_self_iff.mpr kept
  have numeric := number.isNumeric c member
  rcases read_cases true c rest with ⟨rfl, _, _⟩ | ⟨rfl, _⟩ | ⟨rfl, _⟩ | ⟨rfl, _⟩ | ⟨_, _, shape⟩
  · simp [Numeral.IsNumeric] at numeric
  · simp [Numeral.IsNumeric] at numeric
  · simp [Numeral.IsNumeric] at numeric
  · simp [Numeral.IsNumeric] at numeric
  · rw [shape, whole, ofWord_of_number number]

end Lexeme

namespace Scanner

theorem reads_of_quoted {scanner : Scanner} {content tail : List Char}
    (quotable : Alpha.Quotable content) (rest : scanner.rest = '"' :: (content ++ '"' :: tail)) :
    scanner.Reads (.text (.ofList content)) tail := by
  have lexeme : Lexeme.read scanner.lineStart '"' (content ++ '"' :: tail) =
      ⟨'"' :: content ++ ['"'], .text (.ofList content), none⟩ :=
    Lexeme.ofQuoted_of_quotable quotable tail
  have behind : ('"' :: (content ++ '"' :: tail)).drop ('"' :: content ++ ['"']).length = tail := by
    simp
  have reads := reads_of_lexeme rest (by decide) (by decide) lexeme
  rwa [behind] at reads

theorem reads_of_number {scanner : Scanner} {word tail : List Char} (number : Numeral.Number word)
    (lineEnd : AtLineEnd tail) (rest : scanner.rest = word ++ tail) (start : scanner.lineStart = true) :
    scanner.Reads (.number (.ofList word)) tail := by
  cases word with
  | nil => exact absurd rfl number.ne_nil
  | cons c word =>
      rw [List.cons_append] at rest
      have lexeme : Lexeme.read scanner.lineStart c (word ++ tail) =
          ⟨c :: word, .number (.ofList (c :: word)), none⟩ := by
        rw [start]
        exact Lexeme.read_of_number number lineEnd rfl (by simp)
      have numeric := number.isNumeric c (by simp)
      have inside : c ≠ '\n' := by
        rintro rfl
        simp [Numeral.IsNumeric] at numeric
      have behind : (c :: (word ++ tail)).drop (c :: word).length = tail := by simp
      have reads := reads_of_lexeme rest numeric.isBlank_eq inside lexeme
      rwa [behind] at reads

end Scanner

namespace Item

theorem phrase_text {wantStandIn : Bool} {payload : List UInt8} (fits : payload.length ≤ 15)
    {token : Token} (kind : token.kind = .text (.ofList (Alpha.quotedPayload wantStandIn payload))) :
    Phrase [token] (.ok (text payload fits).byteCode) := by
  have coded : ByteCode.text .replace token = .ok (text payload fits).byteCode :=
    ByteCode.text_quotedPayload kind fits
  rw [← coded]
  exact .text kind

theorem phrase_append {wantStandIn : Bool} {payload : List UInt8} (fits : payload.length ≤ 14)
    {mark token : Token} (marked : mark.kind = .append)
    (kind : token.kind = .text (.ofList (Alpha.quotedPayload wantStandIn payload))) :
    Phrase [mark, token] (.ok (append payload fits).byteCode) := by
  have coded : ByteCode.text .append token = .ok _ := ByteCode.text_quotedPayload kind fits
  rw [byteCode, ← ByteCode.frame_append, ← coded]
  exact .append marked kind

theorem phrase_number {lexeme : List Char} (wellFormed : Numeral.Number lexeme) {token : Token}
    (kind : token.kind = .number (.ofList lexeme)) :
    Phrase [token] (.ok (number lexeme wellFormed).byteCode) := by
  rw [byteCode, ← ByteCode.number_of_number kind wellFormed]
  exact .number kind

theorem readsLine_write (wantStandIn : Bool) (item : Item) {scanner : Scanner} {tail : List Char}
    (rest : scanner.rest = item.write wantStandIn ++ tail) (lineEnd : AtLineEnd tail)
    (start : scanner.lineStart = true) :
    ∃ line ending last, Scanner.ReadsLine scanner line ending last tail.tail ∧
      Phrase line (.ok item.byteCode) := by
  cases item with
  | text payload fits =>
      have quotable := Alpha.quotable_quotedPayload wantStandIn payload
      obtain ⟨token, middle, step, kind, left, silent⟩ :=
        Scanner.reads_of_quoted quotable (by simpa [write] using rest)
      obtain ⟨ending, last, closes⟩ := Scanner.readsLine_of_lineEnd left lineEnd
      exact ⟨_, ending, last, .token step (by simp [kind]) silent closes, phrase_text fits kind⟩
  | append payload fits =>
      have quotable := Alpha.quotable_quotedPayload wantStandIn payload
      have ahead : scanner.rest =
          '>' :: '"' :: (Alpha.quotedPayload wantStandIn payload ++ '"' :: tail) := by
        simpa [write] using rest
      obtain ⟨mark, behind, first, marked, quote, hushed⟩ :=
        Scanner.reads_of_lexeme ahead (by decide) (by decide) rfl
      obtain ⟨token, middle, step, kind, left, silent⟩ := Scanner.reads_of_quoted quotable quote
      obtain ⟨ending, last, closes⟩ := Scanner.readsLine_of_lineEnd left lineEnd
      exact ⟨_, ending, last,
        .token first (by simp [marked]) hushed (.token step (by simp [kind]) silent closes),
        phrase_append fits marked kind⟩
  | number lexeme wellFormed =>
      obtain ⟨token, middle, step, kind, left, silent⟩ :=
        Scanner.reads_of_number wellFormed lineEnd rest start
      obtain ⟨ending, last, closes⟩ := Scanner.readsLine_of_lineEnd left lineEnd
      exact ⟨_, ending, last, .token step (by simp [kind]) silent closes, phrase_number wellFormed kind⟩

end Item

namespace Program

open Compiled

def written (items : List (Item × Bool)) : List Char :=
  List.intercalate ['\n'] (items.map fun entry => entry.1.write entry.2)

theorem written_cons (item : Item) (wantStandIn : Bool) (items : List (Item × Bool)) :
    ∃ tail, written ((item, wantStandIn) :: items) = item.write wantStandIn ++ tail ∧
      AtLineEnd tail ∧ tail.tail = written items := by
  cases items with
  | nil => exact ⟨[], by simp [written], by simp [AtLineEnd], by simp [written]⟩
  | cons entry items =>
      refine ⟨'\n' :: written (entry :: items), ?_, ?_, rfl⟩
      · simp [written, List.intercalate_cons_cons]
      · intro c head
        simpa using head.symm

theorem nextLine_write (wantStandIn : Bool) (item : Item) {scanner : Scanner} {tail : List Char}
    (rest : scanner.rest = item.write wantStandIn ++ tail) (lineEnd : AtLineEnd tail)
    (start : scanner.lineStart = true) :
    ∃ last, nextLine scanner = some (.code item.byteCode, last) ∧ last.rest = tail.tail ∧
      last.lineStart = true ∧ last.diagnostics = scanner.diagnostics := by
  obtain ⟨line, ending, last, reads, spoken⟩ := item.readsLine_write wantStandIn rest lineEnd start
  have accepted : Accepted line item.byteCode := ⟨line, [], by simp, spoken, .inl rfl⟩
  have compiled := nextLine_eq reads.yields
  rw [verdict_of_accepted (proper_of_yields reads.yields) accepted] at compiled
  exact ⟨last, compiled, reads.rest, reads.lineStart, reads.diagnostics⟩

theorem compileFrom_written (items : List (Item × Bool)) (scanner : Scanner)
    (rest : scanner.rest = written items) (start : scanner.lineStart = true) :
    ∃ last, compileFrom scanner = some (items.map fun entry => .code entry.1.byteCode, last) ∧
      last.diagnostics = scanner.diagnostics := by
  induction items generalizing scanner with
  | nil =>
      have finished : scanner.atEnd = true := by simp [Scanner.atEnd, rest, written]
      refine ⟨scanner, ?_, rfl⟩
      rw [compileFrom]
      simp [finished]
  | cons entry items ih =>
      obtain ⟨item, wantStandIn⟩ := entry
      obtain ⟨tail, text, lineEnd, behind⟩ := written_cons item wantStandIn items
      rw [text] at rest
      obtain ⟨middle, compiled, left, fresh, silent⟩ := nextLine_write wantStandIn item rest lineEnd start
      obtain ⟨last, later, quiet⟩ := ih middle (left.trans behind) fresh
      have started := List.length_pos_iff.mpr (item.write_ne_nil wantStandIn)
      have going : scanner.atEnd = false := by
        simp [Scanner.atEnd, rest, item.write_ne_nil]
      have shorter : middle.rest.length < scanner.rest.length := by
        rw [left, rest, List.length_append, List.length_tail]
        omega
      refine ⟨last, ?_, quiet.trans silent⟩
      rw [compileFrom]
      simp [going, compiled, shorter, later]

/-- A program that is written out from its items compiles to them, each as one line of byte code, and
nothing is reported. -/
theorem compile_written (items : List (Item × Bool)) :
    ∃ last, compile (written items) = some (items.map fun entry => .code entry.1.byteCode, last) ∧
      last.diagnostics = [] :=
  compileFrom_written items (.ofText (written items)) rfl rfl

end Program

end Calculator
