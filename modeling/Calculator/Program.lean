import Calculator.Scanner
import Calculator.Statement

/-! Compiling whole programs. -/

namespace Calculator.Program

/-- Compiles line after line up to the end of the text. There is no answer if a line never ends. -/
def compileFrom (scanner : Scanner) : Option (List Compiled × Scanner) :=
  if scanner.atEnd then some ([], scanner)
  else
    match Compiled.nextLine scanner with
    | none => none
    | some (compiled, rest) =>
        if rest.rest.length < scanner.rest.length then
          (compileFrom rest).map fun (results, rest) => (compiled :: results, rest)
        else none
termination_by scanner.rest.length

def compile (text : List Char) : Option (List Compiled × Scanner) := compileFrom (.ofText text)

end Calculator.Program
