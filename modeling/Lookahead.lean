import Lookahead.Main
import Lookahead.Files.Tree
import Lookahead.Walkthrough
import Lookahead.Proofs.Command.Verify
import Lookahead.Proofs.Grammar.Culprits
import Lookahead.Proofs.Grammar.History
import Lookahead.Proofs.Grammar.Inverse
import Lookahead.Proofs.Grammar.Rereading
import Lookahead.Proofs.Grammar.Undoing
import Lookahead.Proofs.Graph.Edges
import Lookahead.Proofs.Graph.Grouping
import Lookahead.Proofs.Rounds
import Lookahead.Proofs.Tutor.Canonical
import Lookahead.Proofs.Tutor.Handover
import Lookahead.Proofs.Tutor.Propagations
import Lookahead.Proofs.Tutor.Rebuilding
import Lookahead.Proofs.Tutor.Refusals
import Lookahead.Proofs.Tutor.Shrinking
