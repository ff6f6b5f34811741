import Polish.Main
import Polish.Proofs.Arrival
import Polish.Proofs.Batch
import Polish.Proofs.Buffering
import Polish.Proofs.Commit
import Polish.Proofs.Confinement
import Polish.Proofs.Descent
import Polish.Proofs.Exactness
import Polish.Proofs.Flattening
import Polish.Proofs.History
import Polish.Proofs.Kinds
import Polish.Proofs.LineEnds
import Polish.Proofs.Lossy
import Polish.Proofs.Numerals
import Polish.Proofs.Preorder
import Polish.Proofs.Progress
import Polish.Proofs.Quoting
import Polish.Proofs.Resuming
import Polish.Proofs.Shape
import Polish.Proofs.Spelling
import Polish.Proofs.Splitting
import Polish.Proofs.Stability
import Polish.Proofs.Substitution
import Polish.Proofs.Trimming
import Polish.Proofs.Unread
import Polish.Proofs.Viability
import Polish.Proofs.WellFormed
import Polish.Proofs.Wrapping
import Polish.Stream.Buffered
import Polish.Token.Cursor
import Polish.Tree.Printer
