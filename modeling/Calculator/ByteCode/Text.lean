import Calculator.Fault

/-! The byte code of texts: a header that counts the bytes behind it, the append mark if there is one,
and the codes. -/

namespace Calculator.ByteCode

def maxPayload : Nat := 15

def textHeader : UInt8 := 0xf0

def appendMark : UInt8 := 0x7f

inductive Placement
  | replace
  | append
deriving DecidableEq

namespace Placement

def mark : Placement → List UInt8
  | replace => []
  | append => [appendMark]

def room (placement : Placement) : Nat := maxPayload - placement.mark.length

end Placement

inductive PackError
  | unreadable (error : Alpha.ReadError)
  | overflow (excess : Nat)
deriving DecidableEq

/-- The codes of readings, if there is room for each. When the room is used up, everything still to
come up to the first error is excess, the reading at hand in any case. -/
def pack : Nat → List (Except Alpha.ReadError UInt8) → Except PackError (List UInt8)
  | _, [] => .ok []
  | 0, _ :: rest => .error (.overflow (1 + (rest.takeWhile Except.toBool).length))
  | _ + 1, .error error :: _ => .error (.unreadable error)
  | room + 1, .ok code :: rest =>
      match pack room rest with
      | .ok codes => .ok (code :: codes)
      | .error error => .error error

def frame (payload : List UInt8) : List UInt8 :=
  (textHeader + UInt8.ofNat payload.length) :: payload

def text (placement : Placement) (token : Token) : Except Fault (List UInt8) :=
  match token.kind with
  | .text content =>
      match pack placement.room (Alpha.readings content.toList) with
      | .ok codes => .ok (frame (placement.mark ++ codes))
      | .error (.unreadable error) => .error (.unreadableText error token)
      | .error (.overflow excess) => .error (.textTooLong placement.room excess token)
  | _ => .error (.literalExpected .text token)

end Calculator.ByteCode
