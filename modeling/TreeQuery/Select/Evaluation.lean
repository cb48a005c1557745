import TreeQuery.Select.Filter

/-!
# Evaluating paths

* `Axis.nodes`: the nodes along an axis, in the order of the axis;
* `Step.expand`: those of them that pass a step's test;
* `Semantics.evaluate`: the nodes that a path selects from a context node.
-/

namespace TreeQuery

set_option autoImplicit false

/-- The nodes along an axis; the nearest come first on the axes that lead up or back. -/
def Axis.nodes {t : Tree} : Axis → t.Node → List t.Node
  | child, n => n.children
  | descendant, n => n.descendants
  | parent, n => n.parent?.toList
  | ancestor, n => n.ancestors
  | ancestorOrSelf, n => n :: n.ancestors
  | followingSibling, n => n.laterSiblings
  | precedingSibling, n => n.earlierSiblings
  | self, n => [n]
  | descendantOrSelf, n => n :: n.descendants

/-- The tag passes the step's test, ignoring case. -/
def Step.admits (s : Step) (tag : Text) : Bool :=
  s.matchesAny || s.test.any (tag.sameFolded ·)

/-- The nodes that a step leads to from one node, before its predicates. -/
def Step.expand {t : Tree} (s : Step) (n : t.Node) : List t.Node :=
  (s.axis.nodes n).filter (s.admits ·.tag)

namespace Semantics

variable [Regex.Library] {t : Tree} (m : Semantics t)

/-- One step from a list of nodes: each node once, in the order of its first appearance, and then
what the predicates keep, one after the other. -/
def step (ns : List t.Node) (s : Step) : Except TestError (List t.Node) :=
  s.predicates.foldlM (fun ms p => m.apply p ms) (distinct (ns.flatMap s.expand))

/-- The nodes that a path selects. An absolute path starts at the top of the context's tree. -/
def evaluate (p : Path) (context : t.Node) : Except TestError (List t.Node) :=
  p.steps.foldlM m.step [if p.absolute then .top t else context]

end Semantics

end TreeQuery
