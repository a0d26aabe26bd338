import Calculator.Alpha.Escape
import Calculator.Alpha.Reading
import Calculator.Alpha.Spelling
import Calculator.Alpha.Symbol
import Calculator.ByteCode.Number
import Calculator.ByteCode.Text
import Calculator.Diagnostic
import Calculator.Diagnostic.Record
import Calculator.Digits
import Calculator.Fault
import Calculator.Json.Basic
import Calculator.Json.Reader
import Calculator.Json.Writer
import Calculator.Listing
import Calculator.Program
import Calculator.Scanner
import Calculator.Scanner.Lexeme
import Calculator.Span
import Calculator.Span.Record
import Calculator.Statement
import Calculator.Token
import Calculator.Token.Feed
import Calculator.Token.Record
import Calculator.Proofs.Alpha.Quoting
import Calculator.Proofs.Alpha.Reading
import Calculator.Proofs.Alpha.Spelling
import Calculator.Proofs.Consumption
import Calculator.Proofs.Fault
import Calculator.Proofs.Feed
import Calculator.Proofs.Listing
import Calculator.Proofs.Numeral
import Calculator.Proofs.Program.Covered
import Calculator.Proofs.Program.Lines
import Calculator.Proofs.Program.Returns
import Calculator.Proofs.Program.Scanned
import Calculator.Proofs.Program.Tiling
import Calculator.Proofs.Program.Written
import Calculator.Proofs.Scanner.Lexeme
import Calculator.Proofs.Scanner.Line
import Calculator.Proofs.Scanner.Marks
import Calculator.Proofs.Statement
import Calculator.Proofs.Program.Batch
import Calculator.Proofs.Program.Progress
import Calculator.Proofs.Alpha.Offending
import Calculator.Proofs.Program.Printed
import Calculator.Proofs.Program.Located
import Calculator.Proofs.Alpha.Cursor
import Calculator.Proofs.ByteCode.Text
import Calculator.Proofs.ByteCode.Splitting
import Calculator.Proofs.Json.Literal
import Calculator.Proofs.Json.Document
import Calculator.Proofs.Json.Integer
import Calculator.Proofs.Json.Record
import Calculator.Proofs.Alpha.Munch
import Calculator.Proofs.Alpha.Resuming
import Calculator.Proofs.Alpha.Steps
import Calculator.Proofs.Alpha.Single
import Calculator.Proofs.Program.Numbers
import Calculator.Proofs.Program.Words
import Calculator.Proofs.Program.Reports
