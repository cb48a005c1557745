import TreeQuery.Path.Printer
import TreeQuery.Session.Operations
import TreeQuery.Proofs.Path.RoundTrip
import TreeQuery.Proofs.Select.Meaning
import TreeQuery.Proofs.Store.Recency
import TreeQuery.Proofs.Store.Inclusion
import TreeQuery.Proofs.Store.Marking
import TreeQuery.Proofs.Tree.Reference
import TreeQuery.Proofs.Session.Run
import TreeQuery.Proofs.Session.Registration
import TreeQuery.Proofs.Session.Attachment
import TreeQuery.Proofs.Select.Distinct
import TreeQuery.Proofs.Session.Failure
import TreeQuery.Proofs.Session.Containment
import TreeQuery.Proofs.Tree.Order
import TreeQuery.Proofs.Select.FirstSeen
import TreeQuery.Proofs.Select.Agreement
import TreeQuery.Proofs.Select.Order
import TreeQuery.Proofs.Regex.Wildcard
import TreeQuery.Proofs.Select.Composition
import TreeQuery.Proofs.Select.Provider
import TreeQuery.Proofs.Path.Report
import TreeQuery.Proofs.Path.Strict
import TreeQuery.Proofs.Select.Positional
import TreeQuery.Proofs.Tree.Insertion
import TreeQuery.Proofs.Naming.Stability
import TreeQuery.Proofs.Regex.Glob
import TreeQuery.Proofs.Select.Axes
import TreeQuery.Proofs.Select.Complement
import TreeQuery.Proofs.Store.Batch
import TreeQuery.Proofs.Tree.Ascent
import TreeQuery.Proofs.Naming.Segments
import TreeQuery.Proofs.Naming.Nesting
import TreeQuery.Proofs.Session.Outermost
import TreeQuery.Proofs.Select.Accessor
import TreeQuery.Proofs.Vocabulary
import TreeQuery.Proofs.Path.Tiling
import TreeQuery.Proofs.Path.Lookahead
