import TreeQuery.Tree.Node
import TreeQuery.Vocabulary

/-!
# Stable paths

A stable path such as `/A/Bar/if[1]` names a node by the recognized nodes above it: a node with a name
contributes it, and any other its tag and its place among the siblings with that tag.

* `Naming.segment`, `Naming.path`: the parts and the whole of a stable path;
* `Naming.depth`: how many statements and blocks enclose a node within its declaration;
* `Naming.isNested`: a statement encloses the node before a declaration does;
* `describe`: a node for reports.
-/

namespace TreeQuery

set_option autoImplicit false

/-- How a node with a name is written: by the name alone, or with its tag. -/
inductive NamingStyle where
  | compact
  | qualified
deriving DecidableEq

/-- What stable paths are built with. -/
structure Naming where
  vocabulary : Vocabulary
  style : NamingStyle := .compact

namespace Naming

variable (g : Naming) {t : Tree}

/-! ## Stable paths -/

def segment (n : t.Node) : Text :=
  match n.name, g.style with
  | some name, .compact => name
  | some name, .qualified => n.tag ++ "[" ++ name ++ "]"
  | none, _ => n.tag ++ "[" ++ Text.ofNat n.sameTagIndex ++ "]"

/-- The only block among the children of its parent, which is that parent's body. -/
def isBody (n : t.Node) : Bool :=
  g.vocabulary.isBlock n.tag &&
    n.parent?.any fun p => p.children.countP (g.vocabulary.isBlock ·.tag) == 1

/-- A node above the named one contributes a segment. -/
def contributes (n : t.Node) : Bool := g.vocabulary.isRecognized n.tag && !g.isBody n

/-- The nodes above `n` and below the boundary; a boundary that is not above `n` bounds nothing. -/
def enclosing (n : t.Node) (boundary : Option t.Node) : List t.Node :=
  n.ancestors.takeWhile (some · != boundary)

/-- The stable path of `n` below the boundary. -/
def path (n : t.Node) (boundary : Option t.Node) : Text :=
  (n :: (enclosing n boundary).filter g.contributes).reverse.flatMap fun m => 0x2f :: g.segment m

/-! ## Nesting -/

/-- The statements and blocks strictly between `n` and the nearest of the boundary, the enclosing
declaration and the top. -/
def depth (n : t.Node) (boundary : Option t.Node) : Nat :=
  ((n.ancestors.takeWhile fun m =>
      some m != boundary && !m.route.isEmpty && !g.vocabulary.isDeclaration m.tag).filter fun m =>
    g.vocabulary.isStatement m.tag || g.vocabulary.isBlock m.tag).length

/-- A statement encloses `n` within its declaration. -/
def isNested (n : t.Node) : Bool :=
  (n.ancestors.takeWhile fun m => !g.vocabulary.isDeclaration m.tag).any (g.vocabulary.isStatement ·.tag)

end Naming

/-- The tag, the name in quotes and where the node starts, as far as they are known. -/
def describe {t : Tree} (n : t.Node) : Text :=
  let name : Text := n.name.elim [] fun name => " '" ++ name ++ "'"
  let span := n.label.span
  let place : Text := if span.isEmpty then []
    else " at " ++ Text.ofNat span.startLine ++ ":" ++ Text.ofNat span.startColumn
  n.tag ++ name ++ place

end TreeQuery
