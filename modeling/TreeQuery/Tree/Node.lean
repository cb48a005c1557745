import TreeQuery.Tree.Basic

/-!
# Nodes of a tree

A node of a tree is a route that stays inside it, so that equal subtrees at different places are
different nodes, and questions about ancestors and order are questions about lists of indices.

* `Tree.Node`, `Node.at?`, `Node.top`, `Node.sub`;
* `Node.parent?`, `Node.children`, `Node.ancestors`, `Node.descendants`, `Node.earlierSiblings`,
  `Node.laterSiblings`;
* `Node.isAncestorOf`, `Node.language`, `Node.sameTagIndex`.
-/

namespace TreeQuery.Tree

set_option autoImplicit false

/-- A route that stays inside the tree. -/
structure Node (t : Tree) where
  route : List Nat
  inside : (t.sub? route).isSome
deriving DecidableEq

namespace Node

variable {t : Tree}

/-- The node at the end of a route. -/
def at? (t : Tree) (route : List Nat) : Option t.Node :=
  if h : (t.sub? route).isSome then some ⟨route, h⟩ else none

/-- The top of the tree. -/
def top (t : Tree) : t.Node := ⟨[], rfl⟩

/-- All nodes in document order. -/
def all (t : Tree) : List t.Node := t.routes.filterMap (at? t)

/-- The node with everything below it, as a tree. -/
def sub (n : t.Node) : Tree := (t.sub? n.route).get n.inside

/-! ## What a node carries -/

def label (n : t.Node) : Label := n.sub.label

def tag (n : t.Node) : Text := n.label.tag

def name (n : t.Node) : Option Text := n.label.name

def text (n : t.Node) : Text := n.sub.sourceText

/-! ## Neighbours -/

def childCount (n : t.Node) : Nat := n.sub.children.length

def child? (n : t.Node) (i : Nat) : Option t.Node := at? t (n.route ++ [i])

def children (n : t.Node) : List t.Node := (List.range n.childCount).filterMap n.child?

def parent? (n : t.Node) : Option t.Node :=
  if n.route.isEmpty then none else at? t n.route.dropLast

/-- The node's place among its siblings; the top has none. -/
def index? (n : t.Node) : Option Nat := n.parent?.bind fun p => p.children.idxOf? n

/-- The nodes on the way up, as many levels as are given. -/
def climb : Nat → t.Node → List t.Node
  | 0, _ => []
  | levels + 1, n =>
    match n.parent? with
    | none => []
    | some p => p :: climb levels p

/-- The nodes above, the nearest first. -/
def ancestors (n : t.Node) : List t.Node := climb n.route.length n

/-- The nodes below, in document order. -/
def descendants (n : t.Node) : List t.Node :=
  n.sub.routes.tail.filterMap fun route => at? t (n.route ++ route)

/-- The siblings before the node, the nearest first. -/
def earlierSiblings (n : t.Node) : List t.Node :=
  match n.parent?, n.index? with
  | some p, some i => (p.children.take i).reverse
  | _, _ => []

/-- The siblings after the node, the nearest first. -/
def laterSiblings (n : t.Node) : List t.Node :=
  match n.parent?, n.index? with
  | some p, some i => p.children.drop (i + 1)
  | _, _ => []

/-- `a` lies strictly above `n`. -/
def isAncestorOf (a n : t.Node) : Bool := n.ancestors.contains a

/-! ## What depends on the place -/

/-- The language of the node, or else of the nearest node above that states one. -/
def language (n : t.Node) : Text :=
  ((n :: n.ancestors).map (·.label.language)).find? (!·.isEmpty) |>.getD []

/-- The place among the siblings with the same tag, counted from one. -/
def sameTagIndex (n : t.Node) : Nat := 1 + n.earlierSiblings.countP (·.tag == n.tag)

end Node

end TreeQuery.Tree
