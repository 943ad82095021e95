import FloatLang.Lowering.Trace
import FloatLang.Main
import FloatLang.Numeral.Binary64
import FloatLang.Numeral.Spelling
import FloatLang.Proofs.Scanner.Ahead
import FloatLang.Proofs.Scanner.HandsOut
import FloatLang.Proofs.Scanner.Names
import FloatLang.Proofs.Parser.Takes
import FloatLang.Proofs.Parser.Totality
import FloatLang.Proofs.Parser.Termination
import FloatLang.Proofs.Infix.Assembly
import FloatLang.Proofs.Infix.Grammar
import FloatLang.Proofs.Infix.Yard
import FloatLang.Proofs.Infix.Stack
import FloatLang.Proofs.Scanner.Brackets
import FloatLang.Proofs.Infix.Reading
import FloatLang.Proofs.Rendering.Scanning
import FloatLang.Proofs.Rendering.Statements
import FloatLang.Proofs.Rendering.Programs
import FloatLang.Proofs.Scope.Sight
import FloatLang.Proofs.Tree.Parts
import FloatLang.Proofs.Tree.Made
import FloatLang.Proofs.Infix.Proper
import FloatLang.Proofs.Parser.Failing
import FloatLang.Proofs.Tree.Reading
import FloatLang.Proofs.Tree.Blocks
import FloatLang.Proofs.Lowering.Actions
import FloatLang.Proofs.Tree.Tables
import FloatLang.Proofs.Tree.Shape
import FloatLang.Proofs.Lowering.Scoping
import FloatLang.Proofs.Lowering.Calls
import FloatLang.Proofs.Tree.Binding
import FloatLang.Proofs.Scanner.Places
import FloatLang.Proofs.Scanner.BracketTokens
import FloatLang.Proofs.Parser.Invariants
import FloatLang.Proofs.Parser.Accounts
import FloatLang.Proofs.Parser.Success
import FloatLang.Proofs.Parser.Quiet
import FloatLang.Proofs.Parser.Nesting
import FloatLang.Proofs.Scanner.Continuation
import FloatLang.Proofs.Parser.Errorless
import FloatLang.Proofs.Parser.Abreast
import FloatLang.Proofs.Parser.Resuming
import FloatLang.Proofs.Tree.Relocation
import FloatLang.Proofs.Infix.Relocation
import FloatLang.Proofs.Scope.Relocation
import FloatLang.Proofs.Parser.Relocation
import FloatLang.Proofs.Scanner.Line
import FloatLang.Proofs.Parser.Line
import FloatLang.Proofs.Parser.Recovery
import FloatLang.Proofs.Scanner.Peeking
import FloatLang.Proofs.Scanner.Shapes
import FloatLang.Proofs.Scanner.Tiling
import FloatLang.Proofs.Scanner.Respelling
import FloatLang.Proofs.Tree.Content
import FloatLang.Proofs.Infix.Content
import FloatLang.Proofs.Parser.Content
import FloatLang.Proofs.Lowering.Handles
import FloatLang.Proofs.Infix.Complaints
import FloatLang.Proofs.Parser.Complaints
import FloatLang.Proofs.Parser.Disciplined
import FloatLang.Proofs.Parser.Repetitions
import FloatLang.Proofs.Lowering.Texts
import FloatLang.Proofs.Compilation
import FloatLang.Proofs.Excerpt
import FloatLang.Proofs.Scanner.Patterns
import FloatLang.Proofs.Scanner.Munch
import FloatLang.Proofs.Scope.Runs
import FloatLang.Proofs.Scope.Nested
import FloatLang.Proofs.Parser.Outcome
import FloatLang.Proofs.Tree.Order
import FloatLang.Proofs.Infix.Operands
import FloatLang.Proofs.Parser.FreshLine
import FloatLang.Proofs.Parser.Header
import FloatLang.Proofs.Parser.Places
import FloatLang.Proofs.Parser.Frame
import FloatLang.Proofs.Lowering.Discipline
import FloatLang.Proofs.Lowering.Decoding
import FloatLang.Proofs.Scanner.Lines
import FloatLang.Proofs.Scanner.Positions
import FloatLang.Proofs.Scanner.Encoding
import FloatLang.Proofs.Scanner.Trivia
import FloatLang.Proofs.Scanner.BracketWords
import FloatLang.Proofs.Scanner.Waiting
import FloatLang.Proofs.Numeral.Reading
import FloatLang.Proofs.Numeral.Expansion
import FloatLang.Proofs.Message
import FloatLang.Proofs.Alignment
import FloatLang.Proofs.Gutter
