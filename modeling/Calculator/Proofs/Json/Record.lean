import Calculator.Diagnostic.Record
import Calculator.Proofs.Json.Integer
import Calculator.Token.Record

/-! Diagnostics and tokens survive their JSON form. -/

namespace Calculator

open Json

theorem Span.ofNumbers?_toNat (span : Span) :
    ofNumbers? (.ofNat span.startLine.toNat) (.ofNat span.startColumn.toNat) (.ofNat span.endLine.toNat)
      (.ofNat span.endColumn.toNat) = some span := by
  have fits (value : UInt32) : (Json.ofNat value.toNat : Json Text).toNat? limit = some value.toNat :=
    toNat?_ofNat (Nat.le_sub_one_of_lt value.toNat_lt)
  simp [ofNumbers?, fits]

theorem Span.wellFormed_toFields (span : Span) : ∀ field ∈ span.toFields, WellFormed field.2 := by
  intro field member
  simp only [toFields, List.mem_cons, List.not_mem_nil, or_false] at member
  rcases member with rfl | rfl | rfl | rfl
  all_goals exact wellFormed_ofNat _

namespace Diagnostic

def fieldsBefore (diagnostic : Diagnostic) (tail : List (String × Json String)) :
    List (String × Json String) :=
  ("code", .ofNat diagnostic.code.toNat) :: ("category", .string diagnostic.category.name) ::
    ("message", .string diagnostic.message) :: (diagnostic.span.toFields ++ tail)

theorem exists_tail (diagnostic : Diagnostic) :
    ∃ tail, diagnostic.toJson = .object (diagnostic.fieldsBefore tail) ∧
      (tail = [] ∧ diagnostic.sourceLine = "" ∨
        tail = [("source_line", .string diagnostic.sourceLine)]) := by
  by_cases unknown : diagnostic.sourceLine.isEmpty = true
  · refine ⟨[], by simp [toJson, fieldsBefore, unknown], .inl ⟨rfl, ?_⟩⟩
    simpa using unknown
  · exact ⟨_, by simp [toJson, fieldsBefore, unknown], .inr rfl⟩

theorem wellFormed_toJson (diagnostic : Diagnostic) : WellFormed diagnostic.toJson := by
  obtain ⟨tail, shape, behind⟩ := diagnostic.exists_tail
  rw [shape]
  apply WellFormed.object
  intro field member
  simp only [fieldsBefore, List.mem_cons, List.mem_append] at member
  rcases member with rfl | rfl | rfl | inside | last
  · exact wellFormed_ofNat _
  · exact .string _
  · exact .string _
  · exact diagnostic.span.wellFormed_toFields field inside
  · rcases behind with ⟨rfl, _⟩ | rfl
    · simp at last
    · simp only [List.mem_singleton] at last
      subst last
      exact .string _

theorem isPlain_asRead (diagnostic : Diagnostic) : isPlain depthLimit diagnostic.toJson.asRead = true := by
  obtain ⟨tail, shape, behind⟩ := diagnostic.exists_tail
  have number (value : UInt32) (depth : Nat) : isPlain depth (.ofNat value.toNat) = true := by
    have bound := value.toNat_lt
    exact isPlain_ofNat (by omega) depth
  have code (depth : Nat) : isPlain depth (.ofNat diagnostic.code.toNat) = true := by
    have bound := diagnostic.code.toNat_lt
    exact isPlain_ofNat (by omega) depth
  rw [shape]
  rcases behind with ⟨rfl, _⟩ | rfl
  · simp [isPlain, fieldsPlain, depthLimit, fieldsBefore, Span.toFields, code, number]
  · simp [isPlain, fieldsPlain, depthLimit, fieldsBefore, Span.toFields, code, number]

theorem ofJson?_asRead (diagnostic : Diagnostic) : ofJson? diagnostic.toJson.asRead = some diagnostic := by
  obtain ⟨tail, shape, behind⟩ := diagnostic.exists_tail
  have plain := diagnostic.isPlain_asRead
  have code : (Json.ofNat diagnostic.code.toNat : Json Text).toNat? codeLimit = some diagnostic.code.toNat :=
    toNat?_ofNat (Nat.le_sub_one_of_lt diagnostic.code.toNat_lt)
  have category : Category.ofJson? (.string (some diagnostic.category.name)) = some diagnostic.category := by
    cases diagnostic.category <;> decide
  have span := diagnostic.span.ofNumbers?_toNat
  rw [shape, asRead] at plain ⊢
  rw [ofJson?, if_pos plain]
  rcases behind with ⟨rfl, unknown⟩ | rfl
  · simp [fieldsBefore, required?, valuesOf, Span.toFields, Span.ofFields?, sourceLineOf?, code, category,
      span, toText?, ← unknown]
  · simp [fieldsBefore, required?, valuesOf, Span.toFields, Span.ofFields?, sourceLineOf?, code, category,
      span, toText?]

/-- A diagnostic is read back from its JSON form as it was, whatever its parts. -/
theorem parse?_write_diagnostic (diagnostic : Diagnostic) : parse? diagnostic.write = some diagnostic := by
  have document : Json.parse? diagnostic.write = some diagnostic.toJson.asRead :=
    Json.parse?_write diagnostic.wellFormed_toJson
  rw [parse?, document, Option.bind_some]
  exact diagnostic.ofJson?_asRead

end Diagnostic

namespace Token

theorem Kind.wellFormed_toJson (kind : Kind) : WellFormed kind.toJson := by
  have single {name : String} {content : Json String} (wellFormed : WellFormed content) :
      WellFormed (.object [(name, content)]) := by
    apply WellFormed.object
    simpa using wellFormed
  cases kind with
  | identifier name => exact single (.string _)
  | integer value => exact single (.number (Number.wellFormed_ofInt _))
  | letter c => exact single (.string _)
  | number lexeme => exact single (.string _)
  | text content => exact single (.string _)
  | indirect => exact .string _
  | comma => exact .string _
  | append => exact .string _
  | comment => exact .string _
  | endOfLine => exact .string _

theorem Kind.ofJson?_asRead (kind : Kind) : ofJson? kind.toJson.asRead = some kind := by
  cases kind with
  | integer value =>
      have same : (Json.ofInt value.toInt : Json Text).toInt? = some value.toInt := Number.toInt?_ofInt value.toInt
      have range : -32768 ≤ value.toInt ∧ value.toInt < 32768 := by
        have lower := value.le_toInt
        have upper := value.toInt_lt
        omega
      simp [toJson, ofJson?, ofName?, ofContent?, same, range]
  | letter c => simp [toJson, ofJson?, ofName?, ofContent?, toText?]
  | identifier name => simp [toJson, ofJson?, ofName?, ofContent?, toText?]
  | number lexeme => simp [toJson, ofJson?, ofName?, ofContent?, toText?]
  | text content => simp [toJson, ofJson?, ofName?, ofContent?, toText?]
  | indirect => decide
  | comma => decide
  | append => decide
  | comment => decide
  | endOfLine => decide

theorem spanOfJson?_asRead (span : Span) :
    spanOfJson? (.object (fieldsAsRead span.toFields)) = some span := by
  have numbers := span.ofNumbers?_toNat
  simp [spanOfJson?, keysLegible, Span.ofFields?, Span.toFields, required?, valuesOf, numbers]

theorem ofJson?_asRead (token : Token) : ofJson? token.toJson.asRead = some token := by
  simp [toJson, ofJson?, keysLegible, required?, valuesOf, ofParts?, Kind.ofJson?_asRead,
    spanOfJson?_asRead]

theorem wellFormed_toJson (token : Token) : WellFormed token.toJson := by
  apply WellFormed.object
  intro field member
  simp only [List.mem_cons, List.not_mem_nil, or_false] at member
  rcases member with rfl | rfl
  · exact token.kind.wellFormed_toJson
  · exact .object token.span.wellFormed_toFields

/-- A token is read back from its JSON form as it was, whatever its kind. -/
theorem parse?_write_token (token : Token) : parse? token.write = some token := by
  have document : Json.parse? token.write = some token.toJson.asRead :=
    Json.parse?_write token.wellFormed_toJson
  rw [parse?, document, Option.bind_some]
  exact token.ofJson?_asRead

end Token

end Calculator
