import Calculator.Alpha.Escape

/-! Codes as text: for reading on the display, and for typing back in. -/

namespace Calculator.Alpha

def glyph (code : UInt8) (wantStandIn : Bool) : List Char :=
  match symbol? code with
  | none => [plainChar code]
  | some symbol =>
      match symbol.standIn with
      | some c => if wantStandIn then [c] else symbol.spelling
      | none => symbol.spelling

/-- Text that reads back as the code. It is the glyph, save where the plain character would be read as
something else: a masked character is escaped as itself, any other shadowed code as a numeral. -/
def spell (code : UInt8) (wantStandIn : Bool) : List Char :=
  if (symbol? code).isSome then glyph code wantStandIn
  else if isMasked (plainChar code) then [introducer, plainChar code]
  else if isShadowed code then
    [introducer, 'x', hexDigit (code.toNat / 16), hexDigit (code.toNat % 16)]
  else [plainChar code]

def spellAll (codes : List UInt8) (wantStandIn : Bool) : List Char :=
  codes.flatMap fun code => spell code wantStandIn

end Calculator.Alpha
