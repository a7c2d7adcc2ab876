import SpiceDeck.Files.Tree
import SpiceDeck.Main
import SpiceDeck.Proofs.Batch.Directory
import SpiceDeck.Proofs.Deck.Locality
import SpiceDeck.Proofs.Inert.Deletion
import SpiceDeck.Proofs.Model.Family
import SpiceDeck.Proofs.Model.Parenthesized
import SpiceDeck.Proofs.Order.Permutation
import SpiceDeck.Proofs.Param.Breaking
import SpiceDeck.Proofs.Param.FirstAssignment
import SpiceDeck.Proofs.Param.Idempotence
import SpiceDeck.Proofs.Param.Parentheses
import SpiceDeck.Proofs.Param.Rounding
import SpiceDeck.Proofs.Scope.BlockCarry
import SpiceDeck.Proofs.Scope.BlockEnd
import SpiceDeck.Proofs.Scope.Bracketing
import SpiceDeck.Proofs.Scope.DeclaredModels
import SpiceDeck.Proofs.Statement.Grouping
import SpiceDeck.Proofs.Statement.Joining
import SpiceDeck.Proofs.Statement.Regrouping
import SpiceDeck.Proofs.Subcircuit.PinList
import SpiceDeck.Proofs.Symbols.Buffered
import SpiceDeck.Proofs.Symbols.Recorded
import SpiceDeck.Proofs.Warning.Lines
import SpiceDeck.Proofs.Written.Decks
