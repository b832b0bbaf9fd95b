import BraceScopes.Fixture
import BraceScopes.Query.Bodyless
import BraceScopes.Query.Enclosing
import BraceScopes.Query.Header
import BraceScopes.Settings.Workspace
import BraceScopes.Proofs.Bisect
import BraceScopes.Proofs.Lex.Order
import BraceScopes.Proofs.Lex.Stack
import BraceScopes.Proofs.Lex.Index
import BraceScopes.Proofs.Lex.Classify
import BraceScopes.Proofs.Text.Agree
import BraceScopes.Proofs.Text.Batch
import BraceScopes.Proofs.Document.Changes
import BraceScopes.Proofs.Document.InTurn
import BraceScopes.Proofs.Lex.Lockstep
import BraceScopes.Proofs.Lex.Stability
import BraceScopes.Proofs.Lex.Progress
import BraceScopes.Proofs.Lex.Behind
import BraceScopes.Proofs.Scan.Trivia
import BraceScopes.Proofs.Scan.Group
import BraceScopes.Proofs.Scan.Piece
import BraceScopes.Proofs.Scan.Search
import BraceScopes.Proofs.ArgList
import BraceScopes.Proofs.Lex.Regions
import BraceScopes.Proofs.Detect
import BraceScopes.Proofs.Resolve
import BraceScopes.Proofs.Resolve.Omitted
import BraceScopes.Proofs.Session.Run
import BraceScopes.Proofs.Session.Entries
import BraceScopes.Proofs.Session.Fresh
import BraceScopes.Proofs.Session.UpToDate
import BraceScopes.Proofs.Session.Structure
import BraceScopes.Proofs.Session.Current
import BraceScopes.Proofs.Session.Reachable
import BraceScopes.Proofs.ArgList.Entries
import BraceScopes.Proofs.ArgList.Parameters
import BraceScopes.Proofs.Opaque.Resolve
import BraceScopes.Proofs.Query.Enclosing
import BraceScopes.Proofs.Query.Bodyless
import BraceScopes.Proofs.Query.Interface
import BraceScopes.Proofs.Header.Method
import BraceScopes.Proofs.Header.Type
import BraceScopes.Proofs.Detect.Keyword
import BraceScopes.Proofs.Scan.Partner
import BraceScopes.Proofs.Scan.Sliced
import BraceScopes.Proofs.Query.Declaration
import BraceScopes.Proofs.Query.ImportPattern
import BraceScopes.Proofs.Query.Imports
import BraceScopes.Proofs.Lex.Pairs
import BraceScopes.Proofs.Scan.Tiling
