import Calculator.Alpha.Escape

/-! Reading text into codes, one piece after another. -/

namespace Calculator.Alpha

inductive Problem
  | malformed (defect : Defect)
  | unsupported (c : Char)
deriving DecidableEq

structure ReadError where
  position : Nat
  problem : Problem
deriving DecidableEq

namespace ReadError

def offending (error : ReadError) : Nat :=
  match error.problem with
  | .malformed defect => error.position + defect.offset
  | .unsupported _ => error.position

def message (error : ReadError) : String :=
  match error.problem with
  | .malformed defect => defect.detail ++ " starting at position " ++ toString error.position
  | .unsupported c =>
      "Unsupported character: " ++ String.singleton c ++ " at position " ++ toString error.position

end ReadError

def readPiece (c : Char) (rest : List Char) : Except Problem Piece :=
  if c = introducer then
    match readEscape rest with
    | .ok piece => .ok piece
    | .error defect => .error (.malformed defect)
  else
    match symbolAt? (c :: rest), plainCode? c with
    | some piece, _ => .ok piece
    | none, some code => .ok ⟨code, 1⟩
    | none, none => .error (.unsupported c)

def readAt? (text : List Char) (position : Nat) : Option (Except ReadError Piece) :=
  match text.drop position with
  | [] => none
  | c :: rest =>
      match readPiece c rest with
      | .ok piece => some (.ok piece)
      | .error problem => some (.error ⟨position, problem⟩)

/-- Everything read from a text that `position` characters precede: the codes in order, and last the
error that stopped the reading, if one did. -/
def readingsFrom (position : Nat) : List Char → List (Except ReadError UInt8)
  | [] => []
  | c :: rest =>
      match readPiece c rest with
      | .ok piece => .ok piece.code :: readingsFrom (position + piece.width) (rest.drop (piece.width - 1))
      | .error problem => [.error ⟨position, problem⟩]
termination_by text => text.length
decreasing_by
  simp only [List.length_drop, List.length_cons]
  omega

def readings (text : List Char) : List (Except ReadError UInt8) := readingsFrom 0 text

def collect : List (Except ReadError UInt8) → Except ReadError (List UInt8)
  | [] => .ok []
  | .error error :: _ => .error error
  | .ok code :: rest =>
      match collect rest with
      | .ok codes => .ok (code :: codes)
      | .error error => .error error

def encode (text : List Char) : Except ReadError (List UInt8) := collect (readings text)

/-- The code of a character by itself: no escape sequence and no composite spelling applies. -/
def encodeChar (c : Char) : Except ReadError UInt8 :=
  match symbolAt? [c], plainCode? c with
  | some piece, _ => .ok piece.code
  | none, some code => .ok code
  | none, none => .error ⟨0, .unsupported c⟩

structure Cursor where
  rest : List Char
  position : Nat
  halted : Bool

namespace Cursor

def ofText (text : List Char) : Cursor := ⟨text, 0, false⟩

/-- The next reading, if any, and the cursor behind it. An error does not move the cursor. -/
def next (cursor : Cursor) : Option (Except ReadError UInt8) × Cursor :=
  if cursor.halted then (none, cursor)
  else
    match cursor.rest with
    | [] => (none, cursor)
    | c :: rest =>
        match readPiece c rest with
        | .ok piece =>
            (some (.ok piece.code),
              { cursor with rest := (c :: rest).drop piece.width, position := cursor.position + piece.width })
        | .error problem => (some (.error ⟨cursor.position, problem⟩), { cursor with halted := true })

end Cursor

end Calculator.Alpha
