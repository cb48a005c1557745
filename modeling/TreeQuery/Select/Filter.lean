import TreeQuery.Select.Attribute

/-!
# Predicates on nodes and on lists of nodes

A predicate has two readings. `Semantics.holds` tests one node; `Semantics.apply` filters a list of
candidates, where positions count in the list as it stands, `and` filters twice, `or` puts what only
the right side keeps after what the left side keeps, and `not` removes what its operand keeps.
-/

namespace TreeQuery

set_option autoImplicit false

/-! ## Lists without repetition -/

/-- The first list, and after it those members of the second that have not come before. -/
def appendUnique {α : Type} [DecidableEq α] : List α → List α → List α
  | xs, [] => xs
  | xs, y :: ys => if y ∈ xs then appendUnique xs ys else appendUnique (xs ++ [y]) ys

/-- The first occurrence of each member. -/
def distinct {α : Type} [DecidableEq α] (xs : List α) : List α := appendUnique [] xs

/-- The members that pass a test which may fail; the first failure is the outcome. -/
def keepIf {ε α : Type} (test : α → Except ε Bool) : List α → Except ε (List α)
  | [] => .ok []
  | x :: xs => do
    let keep ← test x
    let rest ← keepIf test xs
    return if keep then x :: rest else rest

/-! ## Predicates -/

/-- The candidate at a position, if there is one. -/
def Position.pick {α : Type} (p : Position) (xs : List α) : List α :=
  if p.fromLast then xs.reverse[p.offset]?.toList
  else if p.offset = 0 then [] else xs[p.offset - 1]?.toList

namespace Semantics

variable [Regex.Library] {t : Tree} (m : Semantics t)

/-- The test of one node. Operands are tested from the left, and only as far as needed. -/
def holds : Predicate → t.Node → Except TestError Bool
  | .name pattern, n => (nameHolds pattern n).mapError .regex
  | .flag word, n => .ok (m.flagHolds word n)
  | .position _, _ => .error .positional
  | .attr a, n => m.attributeHolds a n
  | .not p, n => (holds p n).map (!·)
  | .and p q, n => do if ← holds p n then holds q n else return false
  | .or p q, n => do if ← holds p n then return true else holds q n

/-- The candidates that a predicate keeps. -/
def apply : Predicate → List t.Node → Except TestError (List t.Node)
  | .position p, ns => .ok (p.pick ns)
  | .and p q, ns => do apply q (← apply p ns)
  | .or p q, ns => do return appendUnique (← apply p ns) (← apply q ns)
  | .not p, ns => do
    let excluded ← apply p ns
    return ns.filter (· ∉ excluded)
  | .name pattern, ns => keepIf (m.holds (.name pattern)) ns
  | .flag word, ns => keepIf (m.holds (.flag word)) ns
  | .attr a, ns => keepIf (m.holds (.attr a)) ns

end Semantics

end TreeQuery
