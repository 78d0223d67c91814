import Lox.Attempt
import Lox.Main
import Lox.Parser
import Lox.Postfix.Yard
import Lox.Proofs.Command.Prompt
import Lox.Proofs.Command.SingleLine
import Lox.Proofs.Grammar.Faults
import Lox.Proofs.Grammar.Recovery
import Lox.Proofs.Lexical.BlockComment
import Lox.Proofs.Lexical.Extending
import Lox.Proofs.Lexical.Joining
import Lox.Proofs.Lexical.Lines
import Lox.Proofs.Lexical.Lookahead
import Lox.Proofs.Lexical.Rounds
import Lox.Proofs.Lexical.Scanner
import Lox.Proofs.Lexical.Spacing
import Lox.Proofs.Lexical.Strays
import Lox.Proofs.Parser.Calls
import Lox.Proofs.Parser.Grammar
import Lox.Proofs.Parser.Position
import Lox.Proofs.Parser.Rendering
import Lox.Proofs.Parser.Rounds
import Lox.Proofs.Parser.Termination
import Lox.Proofs.Postfix.Conservation
import Lox.Proofs.Postfix.Derivations
import Lox.Proofs.Postfix.PostOrder
import Lox.Proofs.Postfix.Yard
import Lox.Proofs.RoundTrip.Expressible
import Lox.Proofs.Source.EntryPoints
import Lox.Proofs.Source.Identity
import Lox.Proofs.Source.LineEnds
import Lox.Proofs.Source.TokenDump
import Lox.Proofs.Text.Cursor
import Lox.Proofs.Tree.Readability
import Lox.Reporting
import Lox.Scanner
import Lox.Text.Cursor
