import LetLang.Main
import LetLang.Parse.Action
import LetLang.Scope
import LetLang.Token.Scanner
import LetLang.Proofs.Token.Number
import LetLang.Proofs.Expr.Grammar
import LetLang.Proofs.Program.Language
import LetLang.Proofs.Program.Run
import LetLang.Proofs.Program.FirstFault
import LetLang.Proofs.Expr.Lockstep
import LetLang.Proofs.Program.Resume
import LetLang.Proofs.Token.Spelling
import LetLang.Proofs.Expr.Depth
import LetLang.Proofs.Expr.Spelling
import LetLang.Proofs.Program.Spelling
import LetLang.Proofs.Program.Reparse
import LetLang.Proofs.Program.Canonical
import LetLang.Proofs.Program.Unambiguous
import LetLang.Proofs.Expr.Local
import LetLang.Proofs.Program.Local
import LetLang.Proofs.Parse.Position
import LetLang.Proofs.Expr.CutOff
import LetLang.Proofs.Program.Blocks
import LetLang.Proofs.Program.Unlimited
import LetLang.Proofs.Program.Blame
import LetLang.Proofs.Token.Seam
import LetLang.Proofs.Parse.Trace
import LetLang.Proofs.Program.Layout
import LetLang.Proofs.Program.Sequence
import LetLang.Proofs.Scope.History
import LetLang.Proofs.Scope.Visibility
import LetLang.Proofs.Program.Slice
import LetLang.Proofs.Report.Alignment
import LetLang.Proofs.Token.Column
import LetLang.Proofs.Program.Integer
import LetLang.Proofs.Token.Joined
import LetLang.Proofs.Token.Scanners
import LetLang.Proofs.Program.Notes
