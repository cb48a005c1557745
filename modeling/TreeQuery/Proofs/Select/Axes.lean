import TreeQuery.Proofs.Select.Order

/-!
# What a step leads to

Each axis has its own way through the tree: down by a recursion, up from parent to parent, or along the siblings from
an index on. The lists that come out have one description. They hold exactly the nodes in the relation of the axis, each
once, and the axes that lead on list them in document order, those that lead back against it, the nearest first. So an
axis and its converse are two views of one relation, although one of them is computed downwards and the other upwards.

* `Axis.isForward`, `Axis.nodes_inOrder`: the direction of an axis, and the order in which it lists its nodes;
* `Axis.converse`, `Axis.relates_converse`: the way back;
* `Axis.every`, `Axis.expand_every`: the step along an axis that tests nothing;
* `Step.expand_exact`: what a step lists, in which order, and from where the way back leads to it.
-/

namespace TreeQuery

set_option autoImplicit false

open Tree.Node

namespace Axis

variable {t : Tree}

/-! ## Direction -/

/-- The axis leads to the node itself or to what comes after it in document order. -/
def isForward : Axis → Bool
  | child | descendant | descendantOrSelf | followingSibling | self => true
  | parent | ancestor | ancestorOrSelf | precedingSibling => false

/-- Axes that lead on list their nodes in document order, and those that lead back against it. -/
theorem nodes_inOrder (axis : Axis) (n : t.Node) :
    (axis.nodes n).Pairwise fun a b => if axis.isForward then a.Before b else b.Before a := by
  cases axis with
  | child => exact nodes_increasing (.inl (.inl rfl)) n
  | descendant => exact nodes_increasing (.inr (.inl rfl)) n
  | descendantOrSelf => exact nodes_increasing (.inr (.inr (.inl rfl))) n
  | self => exact nodes_increasing (.inl (.inr rfl)) n
  | followingSibling => exact laterSiblings_increasing n
  | precedingSibling => exact earlierSiblings_decreasing n
  | ancestor => exact ancestors_decreasing n
  | ancestorOrSelf => exact List.pairwise_cons.mpr ⟨fun a ha => .inl (mem_ancestors.mp ha), ancestors_decreasing n⟩
  | parent =>
      rw [nodes]
      cases n.parent? with
      | none => exact .nil
      | some p => exact List.pairwise_singleton _ p

/-! ## The way back -/

/-- The axis that leads back. -/
def converse : Axis → Axis
  | child => parent
  | parent => child
  | descendant => ancestor
  | ancestor => descendant
  | descendantOrSelf => ancestorOrSelf
  | ancestorOrSelf => descendantOrSelf
  | followingSibling => precedingSibling
  | precedingSibling => followingSibling
  | self => self

theorem relates_converse (axis : Axis) (a b : t.Node) : axis.converse.Relates a b ↔ axis.Relates b a := by
  cases axis with
  | self => exact eq_comm
  | child | parent | descendant | ancestor | descendantOrSelf | ancestorOrSelf | followingSibling
    | precedingSibling => exact Iff.rfl

/-! ## Steps -/

/-- The step to all nodes along an axis. -/
def every (axis : Axis) : Step := ⟨axis, some "*", []⟩

theorem expand_every (axis : Axis) (n : t.Node) : axis.every.expand n = axis.nodes n :=
  List.filter_eq_self.mpr fun _ _ => rfl

end Axis

/-- **From every node, a step lists without repetition exactly the nodes on its axis whose tag passes its test, in
document order along the axes that lead on and against it along those that lead back. Without a test, it leads to a
node exactly if the converse step leads back from there; and a node between the siblings before it, turned round, and
those after it makes up the children of its parent.** -/
theorem Step.expand_exact (t : Tree) :
    (∀ (s : Step) (n : t.Node), (s.expand n).Nodup ∧
      (∀ m, m ∈ s.expand n ↔ s.axis.Relates n m ∧ s.Passes m.tag) ∧
      (s.expand n).Pairwise fun a b => if s.axis.isForward then a.Before b else b.Before a) ∧
    (∀ (axis : Axis) (m n : t.Node), m ∈ axis.every.expand n ↔ n ∈ axis.converse.every.expand m) ∧
    ∀ n p : t.Node, p ∈ Axis.parent.every.expand n →
      (Axis.precedingSibling.every.expand n).reverse ++ n :: Axis.followingSibling.every.expand n =
        Axis.child.every.expand p := by
  refine ⟨fun s n => ?_, fun axis m n => ?_, fun n p hp => ?_⟩
  · have horder : (s.expand n).Pairwise fun a b => if s.axis.isForward then a.Before b else b.Before a :=
      (s.axis.nodes_inOrder n).sublist List.filter_sublist
    refine ⟨horder.imp fun {a b} hab => ?_, s.mem_expand n, horder⟩
    split at hab
    · exact hab.ne
    · exact hab.ne.symm
  · rw [Axis.expand_every, Axis.expand_every, Axis.mem_nodes, Axis.mem_nodes, Axis.relates_converse]
  · rw [Axis.expand_every, Axis.mem_nodes] at hp
    obtain ⟨i, hi⟩ := hp
    rw [Axis.expand_every, Axis.expand_every, Axis.expand_every]
    exact hi.siblings

/-- A field between two methods. -/
def threeMembers : Tree :=
  .node { tag := "class" } [.node { tag := "method" } [], .node { tag := "field" } [], .node { tag := "method" } []]

/-- The field with the methods before and after it makes up the members of the class. -/
theorem Step.expand_exact_field :
    Tree.Node.top threeMembers ∈ Axis.parent.every.expand ⟨[1], rfl⟩ ∧
    (Axis.precedingSibling.every.expand (t := threeMembers) ⟨[1], rfl⟩).reverse ++
        ⟨[1], rfl⟩ :: Axis.followingSibling.every.expand ⟨[1], rfl⟩ = [⟨[0], rfl⟩, ⟨[1], rfl⟩, ⟨[2], rfl⟩] := by
  have hparent : Tree.Node.top threeMembers ∈ Axis.parent.every.expand ⟨[1], rfl⟩ := by decide
  exact ⟨hparent, (Step.expand_exact threeMembers).2.2 _ _ hparent⟩

end TreeQuery
