import Calculator.Fault

/-! What the report of a fault says, whatever line it shows. -/

namespace Calculator

namespace Fault

structure ToldBy (fault : Fault) (diagnostic : Diagnostic) : Prop where
  code : diagnostic.code = fault.code
  category : diagnostic.category = .ofCode fault.code
  message : diagnostic.message = fault.message
  span : diagnostic.span = fault.span

@[simp] theorem report_code (fault : Fault) (line? : Option String) :
    (fault.report line?).code = fault.code := rfl

@[simp] theorem report_span (fault : Fault) (line? : Option String) :
    (fault.report line?).span = fault.span := rfl

@[simp] theorem report_sourceLine (fault : Fault) (line? : Option String) :
    (fault.report line?).sourceLine = line?.getD "" := rfl

theorem report_toldBy (fault : Fault) (line? : Option String) : fault.ToldBy (fault.report line?) :=
  ⟨rfl, rfl, rfl, rfl⟩

theorem eq_report_iff {fault : Fault} {line? : Option String} {diagnostic : Diagnostic} :
    diagnostic = fault.report line? ↔
      fault.ToldBy diagnostic ∧ diagnostic.sourceLine = line?.getD "" := by
  constructor
  · rintro rfl
    exact ⟨fault.report_toldBy line?, rfl⟩
  · rintro ⟨told, shown⟩
    obtain ⟨code, category, message, span, sourceLine⟩ := diagnostic
    obtain ⟨rfl, rfl, rfl, rfl⟩ := told
    cases shown
    rfl

end Fault

structure Diagnostic.PointsAt (diagnostic : Diagnostic) (opening : String) (token : Token) : Prop where
  code : diagnostic.code = 100
  category : diagnostic.category = .grammar
  message : diagnostic.message =
    opening ++ " \"" ++ token.kind.render ++ "\"" ++ " at " ++ token.span.text
  span : diagnostic.span = token.span

namespace Fault

variable {diagnostic : Diagnostic}

theorem toldBy_iff_pointsAt {fault : Fault} {opening : String} {token : Token} (code : fault.code = 100)
    (span : fault.span = token.span)
    (wording : fault.complaint = opening ++ " \"" ++ token.kind.render ++ "\"") :
    fault.ToldBy diagnostic ↔ diagnostic.PointsAt opening token := by
  have category : Category.ofCode fault.code = .grammar := by
    rw [code]
    rfl
  have message : fault.message =
      opening ++ " \"" ++ token.kind.render ++ "\"" ++ " at " ++ token.span.text := by
    rw [Fault.message, wording, span]
  constructor
  · rintro ⟨sameCode, sameCategory, sameMessage, sameSpan⟩
    exact ⟨sameCode.trans code, sameCategory.trans category, sameMessage.trans message, sameSpan.trans span⟩
  · rintro ⟨sameCode, sameCategory, sameMessage, sameSpan⟩
    exact ⟨sameCode.trans code.symm, sameCategory.trans category.symm, sameMessage.trans message.symm,
      sameSpan.trans span.symm⟩

theorem unsupportedStatement_toldBy_iff (token : Token) :
    (unsupportedStatement token).ToldBy diagnostic ↔
      diagnostic.PointsAt "Unsupported statement" token :=
  toldBy_iff_pointsAt rfl rfl rfl

theorem textExpected_toldBy_iff (token : Token) :
    (literalExpected .text token).ToldBy diagnostic ↔ diagnostic.PointsAt "Text expected" token :=
  toldBy_iff_pointsAt rfl rfl rfl

theorem trailingToken_toldBy_iff (token : Token) :
    (trailingToken token).ToldBy diagnostic ↔ diagnostic.PointsAt "Unexpected" token :=
  toldBy_iff_pointsAt rfl rfl rfl

end Fault

end Calculator
