import Mathlib.Data.List.Lex
import Mathlib.Data.List.Sort
import TreeQuery.Proofs.Tree.Relation

/-!
# Document order

A tree is read from the top, each node before what lies below it and the children of a node from the first to the
last. So one node comes before another if it lies above it, or if the two lie at or below siblings and the siblings
come in this order. The routes of nodes are then in lexicographic order, and a node that comes before another without
lying above it has everything below it before everything below the other.

* `eq_or_fork_of_lt`, `append_lt_append_of_lt`: where two routes part, and what follows for longer ones;
* `Node.Before`, `Node.before_iff`: document order, as a relation of the tree and as an order of routes;
* `routes_increasing`, `Node.all_increasing`: the nodes of a tree are listed in document order;
* `Node.children_increasing`, `Node.descendants_increasing`: so are those below a node;
* `Node.laterSiblings_increasing`, `Node.earlierSiblings_decreasing`, `Node.ancestors_decreasing`: beside and above;
* `Node.sublist_all`: what is in document order is a part of that list.
-/

namespace TreeQuery.Tree

set_option autoImplicit false

/-! ## Routes -/

section Routes

variable {r s u v : List Nat}

theorem lt_append_of_ne_nil (h : u ≠ []) : r < r ++ u := by
  cases u with
  | nil => exact absurd rfl h
  | cons i u =>
      have hlt : r ++ [] < r ++ i :: u := List.append_left_lt (List.nil_lt_cons i u)
      rwa [List.append_nil] at hlt

theorem fork_lt {i j : Nat} (h : i < j) : r ++ i :: u < r ++ j :: v :=
  List.append_left_lt (List.cons_lt_cons_iff.mpr (.inl h))

/-- Of two routes in order, the first begins the second, or they part at some index. -/
theorem eq_or_fork_of_lt (h : r < s) :
    (∃ u, u ≠ [] ∧ s = r ++ u) ∨ ∃ p i j u v, i < j ∧ r = p ++ i :: u ∧ s = p ++ j :: v := by
  induction r generalizing s with
  | nil =>
      refine .inl ⟨s, ?_, rfl⟩
      rintro rfl
      exact absurd h (List.not_lt_nil [])
  | cons i r ih =>
      cases s with
      | nil => exact absurd h (List.not_lt_nil _)
      | cons j s =>
          rcases List.cons_lt_cons_iff.mp h with hij | ⟨rfl, hrs⟩
          · exact .inr ⟨[], i, j, r, s, hij, rfl, rfl⟩
          · rcases ih hrs with ⟨u, hu, rfl⟩ | ⟨p, i', j', u, v, hij, rfl, rfl⟩
            · exact .inl ⟨u, hu, rfl⟩
            · exact .inr ⟨i :: p, i', j', u, v, hij, rfl, rfl⟩

/-- Routes that have parted stay in order, however they go on. -/
theorem append_lt_append_of_lt (h : r < s) (hrs : ¬ r <+: s) : r ++ u < s ++ v := by
  rcases eq_or_fork_of_lt h with ⟨w, -, rfl⟩ | ⟨p, i, j, u', v', hij, rfl, rfl⟩
  · exact absurd (List.prefix_append r w) hrs
  · simpa using fork_lt hij

end Routes

mutual

/-- A tree lists its routes in order. -/
theorem routes_increasing : (t : Tree) → t.routes.Pairwise (· < ·)
  | node l cs => by
    rw [routes, List.pairwise_cons]
    refine ⟨fun r hr => ?_, routesFrom_increasing 0 cs⟩
    obtain ⟨j, r', c, rfl, -⟩ := (mem_routesFrom 0 cs r).mp hr
    exact List.nil_lt_cons _ r'

theorem routesFrom_increasing (i : Nat) : (cs : List Tree) → (routesFrom i cs).Pairwise (· < ·)
  | [] => .nil
  | c :: cs => by
    rw [routesFrom, List.pairwise_append]
    refine ⟨?_, routesFrom_increasing (i + 1) cs, fun r hr s hs => ?_⟩
    · refine (routes_increasing c).map (i :: ·) fun r s hrs => ?_
      exact List.cons_lt_cons_iff.mpr (.inr ⟨rfl, hrs⟩)
    · obtain ⟨r', -, rfl⟩ := List.mem_map.mp hr
      obtain ⟨j, s', d, rfl, -⟩ := (mem_routesFrom (i + 1) cs s).mp hs
      exact List.cons_lt_cons_iff.mpr (.inl (by omega))

end

namespace Node

variable {t : Tree} {a b c d : t.Node}

/-! ## The order of nodes -/

/-- In document order `a` comes before `b`: it lies above `b`, or the two lie at or below siblings in this order. -/
def Before (a b : t.Node) : Prop :=
  Relation.TransGen IsParentOf a b ∨
    ∃ c d, IsSiblingBefore c d ∧ Relation.ReflTransGen IsParentOf c a ∧ Relation.ReflTransGen IsParentOf d b

theorem before_iff : a.Before b ↔ a.route < b.route := by
  constructor
  · rintro (h | ⟨c, d, ⟨p, i, j, hc, hd, hij⟩, ha, hb⟩)
    · obtain ⟨u, hu, hroute⟩ := strictlyBelow_iff.mp h
      rw [hroute]
      exact lt_append_of_ne_nil hu
    · obtain ⟨u, hu⟩ := below_iff.mp ha
      obtain ⟨v, hv⟩ := below_iff.mp hb
      rw [hu, hv, hc, hd, List.append_assoc, List.append_assoc]
      exact fork_lt hij
  · intro h
    rcases eq_or_fork_of_lt h with ⟨u, hu, hb⟩ | ⟨p, i, j, u, v, hij, ha, hb⟩
    · exact .inl (strictlyBelow_iff.mpr ⟨u, hu, hb⟩)
    · -- The siblings are the nodes just below the place where the routes part.
      rw [List.append_cons] at ha hb
      have hc : (t.sub? (p ++ [i])).isSome := isSome_sub?_of_append (ha ▸ a.inside)
      have hd : (t.sub? (p ++ [j])).isSome := isSome_sub?_of_append (hb ▸ b.inside)
      have hp : (t.sub? p).isSome := isSome_sub?_of_append hc
      refine .inr ⟨⟨p ++ [i], hc⟩, ⟨p ++ [j], hd⟩, ⟨⟨p, hp⟩, i, j, rfl, rfl, hij⟩, ?_, ?_⟩
      · exact below_iff.mpr ⟨u, ha⟩
      · exact below_iff.mpr ⟨v, hb⟩

instance : DecidableRel (Before (t := t)) := fun _ _ => decidable_of_iff _ before_iff.symm

theorem Before.ne (h : a.Before b) : a ≠ b := by
  rintro rfl
  exact lt_irrefl _ (before_iff.mp h)

theorem Before.asymm (h : a.Before b) : ¬ b.Before a :=
  fun h' => lt_asymm (before_iff.mp h) (before_iff.mp h')

instance : Std.Antisymm (Before (t := t)) := ⟨fun _ _ h h' => absurd h' h.asymm⟩

/-- What comes before a node without lying above it comes, with all below it, before all below the node. -/
theorem Before.below (h : a.Before b) (hab : ¬ Relation.ReflTransGen IsParentOf a b)
    (hc : Relation.ReflTransGen IsParentOf a c) (hd : Relation.ReflTransGen IsParentOf b d) : c.Before d := by
  obtain ⟨u, hu⟩ := below_iff.mp hc
  obtain ⟨v, hv⟩ := below_iff.mp hd
  rw [before_iff, hu, hv]
  refine append_lt_append_of_lt (before_iff.mp h) fun ⟨w, hw⟩ => ?_
  exact hab (below_iff.mpr ⟨w, hw.symm⟩)

/-! ## Lists in document order -/

/-- Nodes at the ends of routes in order are in order. -/
theorem increasing_filterMap {routes : List (List Nat)} (h : routes.Pairwise (· < ·)) (base : List Nat) :
    (routes.filterMap fun r => at? t (base ++ r)).Pairwise Before := by
  refine h.filterMap _ fun r s hrs a ha b hb => ?_
  rw [before_iff, at?_eq_some.mp ha, at?_eq_some.mp hb]
  exact List.append_left_lt hrs

theorem all_increasing (t : Tree) : (all t).Pairwise Before := increasing_filterMap t.routes_increasing []

theorem descendants_increasing (n : t.Node) : n.descendants.Pairwise Before :=
  increasing_filterMap n.sub.routes_increasing.tail n.route

theorem children_increasing (n : t.Node) : n.children.Pairwise Before := by
  refine List.pairwise_lt_range.filterMap _ fun i j hij a ha b hb => ?_
  rw [before_iff, child?_eq_some.mp ha, child?_eq_some.mp hb]
  exact fork_lt hij

theorem laterSiblings_increasing (n : t.Node) : n.laterSiblings.Pairwise Before := by
  cases hparent : n.parent? with
  | none =>
      rw [(siblings_of_parent?_eq_none hparent).2]
      exact .nil
  | some p =>
      obtain ⟨i, hn⟩ := parent?_eq_some.mp hparent
      rw [hn.laterSiblings]
      exact p.children_increasing.sublist (List.drop_sublist _ _)

theorem earlierSiblings_decreasing (n : t.Node) : n.earlierSiblings.Pairwise fun a b => b.Before a := by
  cases hparent : n.parent? with
  | none =>
      rw [(siblings_of_parent?_eq_none hparent).1]
      exact .nil
  | some p =>
      obtain ⟨i, hn⟩ := parent?_eq_some.mp hparent
      rw [hn.earlierSiblings, List.pairwise_reverse]
      exact p.children_increasing.sublist (List.take_sublist _ _)

theorem ancestors_decreasing (n : t.Node) : n.ancestors.Pairwise fun a b => b.Before a := by
  induction n using induction_down with
  | top => exact .nil
  | child p i n hn ih =>
      rw [hn.ancestors, List.pairwise_cons]
      exact ⟨fun a ha => .inl (mem_ancestors.mp ha), ih⟩

theorem sublist_all {ns : List t.Node} (h : ns.Pairwise Before) : ns.Sublist (all t) := by
  have hnodup : ns.Nodup := h.imp Before.ne
  have hsubperm : ns.Subperm (all t) := List.subperm_of_subset hnodup fun n _ => n.mem_all
  exact List.sublist_of_subperm_of_pairwise hsubperm h (all_increasing t)

end Node

end TreeQuery.Tree
