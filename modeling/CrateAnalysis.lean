import CrateAnalysis.Analysis.Session
import CrateAnalysis.Grammar.Catalogue
import CrateAnalysis.Proofs.Analysis.Ending
import CrateAnalysis.Proofs.Analysis.Session
import CrateAnalysis.Proofs.Dot.Decode
import CrateAnalysis.Proofs.Reduction.Content
import CrateAnalysis.Proofs.Reduction.NormalForm
import CrateAnalysis.Proofs.Service.Endpoint
import CrateAnalysis.Proofs.Syntax.Layout
import CrateAnalysis.Proofs.Syntax.Parse
import CrateAnalysis.Proofs.Reduction.Canonical
import CrateAnalysis.Proofs.Reduction.Idempotence
import CrateAnalysis.Proofs.Dot.Numbering
import CrateAnalysis.Proofs.Grammar.Precedence
import CrateAnalysis.Proofs.Syntax.Operations
import CrateAnalysis.Proofs.Token.Scan
import CrateAnalysis.Proofs.Token.Longest
import CrateAnalysis.Proofs.Token.Unreadable
import CrateAnalysis.Proofs.Grammar.Catalogue
import CrateAnalysis.Proofs.Grammar.Neighbours
import CrateAnalysis.Proofs.Token.Adjoining
import CrateAnalysis.Proofs.Syntax.Types
import CrateAnalysis.Proofs.Dot.Escape
import CrateAnalysis.Proofs.Tree.Lisp
import CrateAnalysis.Proofs.Json.Print
import CrateAnalysis.Proofs.Syntax.Listing
import CrateAnalysis.Proofs.Report.Dump
import CrateAnalysis.Proofs.Report.Stamp
import CrateAnalysis.Proofs.Tree.Serialisation
