/-! The symbols of the calculator's alphabet: the codes that do not look like the character of the
same value, how each is spelled, and what can be typed in its place. -/

namespace Calculator.Alpha

/-- A code with a spelling of its own. A spelling of several characters is a base character with its
combining marks. The stand-in is a character that is easier to type. -/
structure Symbol where
  code : UInt8
  spelling : List Char
  standIn : Option Char
deriving DecidableEq

def symbols : List Symbol :=
  [ ⟨0, ['‾'], none⟩, ⟨1, ['ˣ'], none⟩, ⟨2, ['x', '\u0304'], some 'ẍ'⟩, ⟨3, ['←'], none⟩,
    ⟨4, ['α'], none⟩, ⟨5, ['β'], none⟩, ⟨6, ['Γ'], none⟩, ⟨7, ['↓'], none⟩, ⟨8, ['Δ'], none⟩,
    ⟨9, ['σ'], none⟩, ⟨10, ['♦'], none⟩, ⟨11, ['λ'], none⟩, ⟨12, ['μ'], none⟩, ⟨13, ['∡'], some '@'⟩,
    ⟨14, ['τ'], none⟩, ⟨15, ['Φ'], none⟩, ⟨16, ['Θ'], none⟩, ⟨17, ['Ω'], none⟩, ⟨18, ['δ'], none⟩,
    ⟨19, ['Ȧ'], none⟩, ⟨20, ['ȧ'], none⟩, ⟨21, ['Ä'], none⟩, ⟨22, ['ä'], none⟩, ⟨23, ['Ö'], none⟩,
    ⟨24, ['ö'], none⟩, ⟨25, ['Ü'], none⟩, ⟨26, ['ü'], none⟩, ⟨27, ['Æ'], none⟩, ⟨28, ['œ'], none⟩,
    ⟨29, ['≠'], some '#'⟩, ⟨30, ['£'], none⟩, ⟨31, ['▒'], none⟩, ⟨96, ['┬'], none⟩, ⟨123, ['π'], none⟩,
    ⟨124, ['|'], none⟩, ⟨125, ['→'], none⟩, ⟨126, ['Σ'], some '&'⟩, ⟨127, ['Ⱶ'], none⟩ ]

structure Piece where
  code : UInt8
  width : Nat
deriving DecidableEq

def plainChar (code : UInt8) : Char := Char.ofNat code.toNat

def plainCode? (c : Char) : Option UInt8 :=
  if c.toNat < 256 then some (UInt8.ofNat c.toNat) else none

def symbol? (code : UInt8) : Option Symbol := symbols.find? fun symbol => symbol.code == code

namespace Symbol

def isComposite (symbol : Symbol) : Bool := 1 < symbol.spelling.length

/-- A stand-in masks a character when the code of the same value would have been shown as that
character: typing it gives the symbol instead. -/
def masked? (symbol : Symbol) : Option Char :=
  symbol.standIn.filter fun c =>
    match plainCode? c with
    | none => false
    | some code =>
        match symbol? code with
        | none => true
        | some native => native.spelling == [c]

end Symbol

def isMasked (c : Char) : Bool := symbols.any fun symbol => symbol.masked? == some c

/-- The symbol a text starts with. A stand-in goes before a one-character spelling, and that before a
composite spelling, which has to be there in full. -/
def symbolAt? : List Char → Option Piece
  | [] => none
  | c :: rest =>
      ((symbols.find? fun symbol => symbol.standIn == some c).map fun symbol => ⟨symbol.code, 1⟩) <|>
      ((symbols.find? fun symbol => symbol.spelling == [c]).map fun symbol => ⟨symbol.code, 1⟩) <|>
      ((symbols.find? fun symbol => symbol.isComposite && symbol.spelling.isPrefixOf (c :: rest)).map
        fun symbol => ⟨symbol.code, symbol.spelling.length⟩)

def isShadowed (code : UInt8) : Bool :=
  (symbol? code).isNone &&
    match symbolAt? [plainChar code] with
    | some piece => piece.code != code
    | none => false

end Calculator.Alpha
