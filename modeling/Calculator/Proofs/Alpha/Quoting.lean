import Calculator.Proofs.Alpha.Spelling

/-! Codes spelled so that they can stand between quotes. -/

namespace Calculator.Alpha

def Quotable (text : List Char) : Prop := '"' ∉ text ∧ '\n' ∉ text

theorem quotable_form : ∀ symbol ∈ symbols, ∀ form ∈ symbol.forms, '"' ∉ form ∧ '\n' ∉ form := by
  decide

theorem quotable_hexDigit : ∀ value < 16, '"' ≠ hexDigit value ∧ '\n' ≠ hexDigit value := by decide

theorem quotable_hexadecimal (code : UInt8) :
    Quotable [introducer, 'x', hexDigit (code.toNat / 16), hexDigit (code.toNat % 16)] := by
  have bound := code.toNat_lt
  have high := quotable_hexDigit (code.toNat / 16) (by omega)
  have low := quotable_hexDigit (code.toNat % 16) (by omega)
  simp [Quotable, introducer, high, low]

theorem quotable_spell (code : UInt8) (wantStandIn : Bool) (other : code ≠ 34) :
    Quotable (spell code wantStandIn) := by
  have noQuote : plainChar code ≠ '"' := by
    intro same
    exact other (UInt8.toNat_inj.mp (by rw [← toNat_plainChar, same]; rfl))
  rcases spell_cases code wantStandIn with ⟨symbol, declared, _, typed⟩ | ⟨masked, spelled⟩ |
    spelled | ⟨undeclared, _, spelled⟩
  · exact quotable_form symbol declared _ typed
  · have noNewline : plainChar code ≠ '\n' := by
      intro same
      rw [same] at masked
      exact absurd masked (by decide)
    rw [spelled]
    simp [Quotable, introducer, Ne.symm noQuote, Ne.symm noNewline]
  · rw [spelled]
    exact quotable_hexadecimal code
  · have noNewline : plainChar code ≠ '\n' := by
      intro same
      have value : code = 10 := UInt8.toNat_inj.mp (by rw [← toNat_plainChar, same]; rfl)
      subst value
      exact absurd undeclared (by decide)
    rw [spelled]
    simp [Quotable, Ne.symm noQuote, Ne.symm noNewline]

def quotedCode (wantStandIn : Bool) (code : UInt8) : List Char :=
  if code = 34 then [introducer, 'x', '2', '2'] else spell code wantStandIn

theorem readsAs_quotedCode (wantStandIn : Bool) (code : UInt8) :
    ReadsAs (quotedCode wantStandIn code) code := by
  unfold quotedCode
  split
  · next quote =>
      subst quote
      exact readsAs_hexadecimal 34
  · exact readsAs_spell code wantStandIn

theorem quotable_quotedCode (wantStandIn : Bool) (code : UInt8) :
    Quotable (quotedCode wantStandIn code) := by
  unfold quotedCode
  split
  · exact quotable_hexadecimal 34
  · next other => exact quotable_spell code wantStandIn other

def quotedPayload (wantStandIn : Bool) (payload : List UInt8) : List Char :=
  payload.flatMap (quotedCode wantStandIn)

theorem quotable_quotedPayload (wantStandIn : Bool) (payload : List UInt8) :
    Quotable (quotedPayload wantStandIn payload) := by
  simp only [Quotable, quotedPayload, List.mem_flatMap, not_exists, not_and]
  exact ⟨fun code _ => (quotable_quotedCode wantStandIn code).1,
    fun code _ => (quotable_quotedCode wantStandIn code).2⟩

theorem readings_quotedPayload (wantStandIn : Bool) (payload : List UInt8) :
    readings (quotedPayload wantStandIn payload) = payload.map .ok := by
  have spelled := readingsFrom_spelled (quotedCode wantStandIn) id payload
    (fun code _ => readsAs_quotedCode wantStandIn code) 0 [] (by simp [Detached])
  simpa [readings, readingsFrom, quotedPayload] using spelled

end Calculator.Alpha
