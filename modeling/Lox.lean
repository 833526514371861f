import Lox.Conformance.Suite
import Lox.Expr.Basic
import Lox.Main
import Lox.Report.Session
import Lox.Text.Encoding
import Lox.Proofs.Boundary
import Lox.Proofs.Reading
import Lox.Lexical.Grammar
import Lox.Proofs.GrammarMembership
import Lox.Proofs.MaximalMunch
import Lox.Lexical.Cursor
import Lox.Proofs.CursorInvariant
import Lox.Proofs.CursorSafety
import Lox.Proofs.LineJoin
import Lox.Proofs.LineNumbers
import Lox.Proofs.Continuation
import Lox.Proofs.Rereading
import Lox.Proofs.Layout
import Lox.Proofs.Glueing
import Lox.Proofs.Lookahead
import Lox.Proofs.Sessions
import Lox.Proofs.Decoding
import Lox.Proofs.Listing
import Lox.Proofs.Agreement
import Lox.Proofs.Automaton
import Lox.Proofs.Recovery
import Lox.Proofs.Captures
import Lox.Proofs.Remarks
import Lox.Proofs.Verdicts
import Lox.Proofs.StreamComparison
import Lox.Proofs.Annotated
import Lox.Proofs.Respelling
import Lox.Proofs.TokenEquality
import Lox.Proofs.Readability
import Lox.Proofs.Linearisation
import Lox.Proofs.ExprEquality
import Lox.Proofs.Magnitudes
import Lox.Proofs.CorrectRounding
import Lox.Proofs.NumberLiterals
import Lox.Proofs.PrintedNumbers
