import TreeQuery.Naming

/-!
# Snapshots and references

A snapshot is a numbered view of a document from one of its nodes down. A reference records where a
node was in a snapshot and what it was, and can be resolved in a later one.

* `Document`, `Place`: a tree with an identity, and a node of it;
* `Snapshot`, `Snapshot.contains`;
* `Reference`, `Snapshot.routeTo`, `Snapshot.refer?`, `Snapshot.resolve?`.
-/

namespace TreeQuery

set_option autoImplicit false

/-- A tree with an identity: documents with equal trees may still be different. -/
structure Document where
  key : Nat
  tree : Tree
deriving DecidableEq

/-- A node of a document. -/
structure Place where
  document : Document
  node : document.tree.Node

/-- A view of a document from `root` down. -/
structure Snapshot where
  id : Nat
  document : Document
  root : document.tree.Node
  file : Option Text := none

/-- Where a node was in a snapshot, counted from the snapshot's root, and its tag and name. -/
structure Reference where
  snapshot : Nat
  route : List Nat
  tag : Text
  name : Option Text
deriving DecidableEq

def Reference.render (r : Reference) : Text :=
  let route : Text := if r.route.isEmpty then "/" else r.route.flatMap fun i => 0x2f :: Text.ofNat i
  let name : Text := r.name.elim [] fun name => " '" ++ name ++ "'"
  "#" ++ Text.ofNat r.snapshot ++ ":" ++ route ++ " " ++ r.tag ++ name

namespace Snapshot

variable (s : Snapshot)

/-- The place as a node of the snapshot's document, if it is one. -/
def node? (p : Place) : Option s.document.tree.Node :=
  if h : p.document = s.document then some (h ▸ p.node) else none

/-- The place is the root of the snapshot or lies below it. -/
def contains (p : Place) : Bool := (s.node? p).any fun n => n == s.root || s.root.isAncestorOf n

/-- The child indices from the root down to a node. They are met on the way up from the node, the last
one first. -/
def routeTo (n : s.document.tree.Node) : List Nat :=
  (((n :: n.ancestors).takeWhile (· != s.root)).filterMap (·.index?)).reverse

/-- The reference to a place that the snapshot contains. -/
def refer? (p : Place) : Option Reference :=
  if s.contains p then (s.node? p).map fun n => ⟨s.id, s.routeTo n, n.tag, n.name⟩ else none

/-- The node to which a reference leads, child by child from the root, unless it has another tag or
name. -/
def resolve? (r : Reference) : Option s.document.tree.Node :=
  (r.route.foldlM Tree.Node.child? s.root).filter fun n =>
    n.tag == r.tag && (r.name.isNone || n.name == r.name)

end Snapshot

end TreeQuery
