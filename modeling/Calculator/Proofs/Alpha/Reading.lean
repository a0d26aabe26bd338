import Mathlib
import Calculator.Alpha.Reading

/-! Readings do not depend on where a text stands, except for the positions of errors. -/

namespace Calculator.Alpha

def ReadError.shift (count : Nat) (error : ReadError) : ReadError :=
  { error with position := error.position + count }

theorem ReadError.offending_shift (error : ReadError) (count : Nat) :
    (error.shift count).offending = error.offending + count := by
  rcases error with ⟨position, defect | c⟩
  · exact Nat.add_right_comm position count defect.offset
  · rfl

def shiftReading (count : Nat) : Except ReadError UInt8 → Except ReadError UInt8 :=
  Except.mapError (ReadError.shift count)

theorem readingsFrom_add (count position : Nat) (text : List Char) :
    readingsFrom (count + position) text =
      (readingsFrom position text).map (shiftReading count) := by
  fun_induction readingsFrom position text with
  | case1 => simp [readingsFrom]
  | case2 position c rest piece reads ih =>
      rw [readingsFrom, reads]
      simp only [List.map_cons, ← ih, Nat.add_assoc]
      rfl
  | case3 position c rest problem reads =>
      rw [readingsFrom, reads]
      simp [shiftReading, Except.mapError, ReadError.shift, Nat.add_comm]

theorem collect_map_shiftReading (count : Nat) (readings : List (Except ReadError UInt8)) :
    collect (readings.map (shiftReading count)) = (collect readings).mapError (ReadError.shift count) := by
  induction readings with
  | nil => rfl
  | cons reading rest ih =>
      cases reading with
      | error error => rfl
      | ok code =>
          simp only [List.map_cons, shiftReading, Except.mapError, collect] at ih ⊢
          rw [ih]
          cases collect rest <;> rfl

theorem collect_append_ok (codes : List UInt8) (readings : List (Except ReadError UInt8)) :
    collect (codes.map .ok ++ readings) = (collect readings).map (codes ++ ·) := by
  induction codes with
  | nil => cases collected : collect readings <;> simp [collected, Except.map]
  | cons code codes ih =>
      simp only [List.map_cons, List.cons_append, collect, ih]
      cases collect readings <;> rfl

/-- Behind codes that have been read, a text is encoded as it is by itself. -/
theorem collect_resumed (codes : List UInt8) (count : Nat) (text : List Char) :
    collect (codes.map .ok ++ readingsFrom count text) =
      ((encode text).mapError (ReadError.shift count)).map (codes ++ ·) := by
  rw [collect_append_ok, ← Nat.add_zero count, readingsFrom_add, collect_map_shiftReading]
  rfl

end Calculator.Alpha
