import ConsLisp.Evaluation.Depth
import ConsLisp.Proofs.Source.Continuation
import ConsLisp.Proofs.Source.RoundTrip
import ConsLisp.Proofs.Store.Persistence
import ConsLisp.Session
import ConsLisp.Store.Listing
import ConsLisp.Value.Equality
import ConsLisp.Proofs.Store.Locality
import ConsLisp.Proofs.Source.Joining
import ConsLisp.Proofs.Evaluation.Pieces
import ConsLisp.Proofs.Evaluation.Lockstep
import ConsLisp.Proofs.Session.ProperLists
import ConsLisp.Proofs.Store.Unmentioned
import ConsLisp.Proofs.Session.SyntaxErrors
import ConsLisp.Proofs.Evaluation.Failures
import ConsLisp.Proofs.Evaluation.ArgumentCounts
import ConsLisp.Proofs.Store.History
import ConsLisp.Proofs.Evaluation.Calls
import ConsLisp.Proofs.Session.GlobalNames
import ConsLisp.Proofs.Session.Counters
import ConsLisp.Proofs.Source.Cutting
import ConsLisp.Proofs.Source.Lookahead
import ConsLisp.Proofs.Source.Tokens
import ConsLisp.Proofs.Source.Comments
import ConsLisp.Proofs.Value.Callables
import ConsLisp.Proofs.Evaluation.Record
import ConsLisp.Proofs.Session.Turns
import ConsLisp.Proofs.Evaluation.Copies
import ConsLisp.Proofs.Session.Identity
import ConsLisp.Proofs.Source.Excerpts
import ConsLisp.Proofs.Evaluation.Parameters
import ConsLisp.Proofs.Evaluation.Templates
import ConsLisp.Proofs.Session.Registry
import ConsLisp.Proofs.Evaluation.BigSteps
import ConsLisp.Proofs.Evaluation.Arithmetic
import ConsLisp.Proofs.Source.NestingLimit
import ConsLisp.Proofs.Prelude.Definitions
import ConsLisp.Proofs.Prelude.Lists
import ConsLisp.Proofs.Store.Relocation
import ConsLisp.Proofs.Evaluation.Relocation
import ConsLisp.Proofs.Evaluation.CallEffects
import ConsLisp.Proofs.Prelude.Map
import ConsLisp.Proofs.Prelude.Sequencing
import ConsLisp.Proofs.Store.Listing
import ConsLisp.Proofs.Evaluation.SingleWrites
import ConsLisp.Proofs.Value.Equality
import ConsLisp.Proofs.Source.Literals
import ConsLisp.Proofs.Source.Scanning
import ConsLisp.Proofs.Evaluation.FunctionDefinitions
import ConsLisp.Proofs.Value.StructureText
