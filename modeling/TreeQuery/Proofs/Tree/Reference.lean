import TreeQuery.Proofs.Tree.Relation
import TreeQuery.Snapshot

/-!
# References and what they resolve to

A snapshot refers to the nodes at and below its root by the indices that are met on the way up to it, and resolves a
reference by following them down again; so what resolves in one snapshot lies there where the node was in the other.

* `Snapshot.contains_iff`: the places inside a snapshot;
* `Snapshot.routeTo_eq`, `Snapshot.foldlM_child?`: the way up and the way down as routes;
* `Snapshot.refer?_eq_some`, `Snapshot.resolve?_eq_some`: the references that are made, and what they resolve to;
* `Snapshot.resolve?_of_refer?`: what the reference to a node resolves to in any snapshot;
* `Snapshot.refer?_of_root_eq_top`: from the top, there are references to all nodes.
-/

namespace TreeQuery.Snapshot

set_option autoImplicit false

open Tree.Node

variable {s t : Snapshot} {p : Place} {r : Reference}

theorem node?_eq_some {n : s.document.tree.Node} : s.node? p = some n ↔ p = ⟨s.document, n⟩ := by
  obtain ⟨id, document, root, file⟩ := s
  obtain ⟨d, m⟩ := p
  unfold node?
  constructor
  · intro h
    split at h
    · rename_i hd
      cases hd
      exact congrArg _ (Option.some.inj h)
    · cases h
  · intro h
    cases h
    rw [dif_pos rfl]

theorem contains_iff : s.contains p = true ↔
    ∃ n route, p = ⟨s.document, n⟩ ∧ n.route = s.root.route ++ route := by
  have hinside : ∀ n : s.document.tree.Node, (n == s.root || s.root.isAncestorOf n) = true ↔
      ∃ route, n.route = s.root.route ++ route := by
    intro n
    rw [← below_iff, Relation.reflTransGen_iff_eq_or_transGen, ← mem_ancestors, Bool.or_eq_true, beq_iff_eq,
      isAncestorOf, List.contains_iff_mem]
  simp only [contains, Option.any_eq_true, node?_eq_some, hinside, exists_and_left]

/-- One more level down, the index of the child comes last. -/
theorem routeTo_child {m n : s.document.tree.Node} {i : Nat} (h : m.ChildAt i n) (hne : n ≠ s.root) :
    s.routeTo n = s.routeTo m ++ [i] := by
  have hindex : (n :: m :: m.ancestors).takeWhile (· != s.root) =
      n :: (m :: m.ancestors).takeWhile (· != s.root) := List.takeWhile_cons_of_pos (bne_iff_ne.mpr hne)
  rw [routeTo, h.ancestors, hindex, List.filterMap_cons_some h.index?, List.reverse_cons]
  rfl

/-- The way up from a node to the root passes the indices of its route. -/
theorem routeTo_eq {n : s.document.tree.Node} {route : List Nat} (h : n.route = s.root.route ++ route) :
    s.routeTo n = route := by
  induction route using List.reverseRecOn generalizing n with
  | nil =>
      obtain rfl : n = s.root := ext_route (by rw [h, List.append_nil])
      rw [routeTo, List.takeWhile_cons_of_neg (by simp)]
      rfl
  | append_singleton route i ih =>
      rw [← List.append_assoc] at h
      have hinside : (s.document.tree.sub? (s.root.route ++ route)).isSome :=
        Tree.isSome_sub?_of_append (h ▸ n.inside)
      have hchild : ChildAt ⟨s.root.route ++ route, hinside⟩ i n := h
      have hne : n ≠ s.root := by
        rintro rfl
        simpa using congrArg List.length h
      rw [routeTo_child hchild hne, ih rfl]

theorem refer?_eq_some : s.refer? p = some r ↔
    ∃ n route, p = ⟨s.document, n⟩ ∧ n.route = s.root.route ++ route ∧ r = ⟨s.id, route, n.tag, n.name⟩ := by
  unfold refer?
  by_cases h : s.contains p = true
  · obtain ⟨n, route, rfl, hroute⟩ := contains_iff.mp h
    rw [if_pos h, node?_eq_some.mpr rfl, Option.map_some, Option.some.injEq, routeTo_eq hroute]
    constructor
    · rintro rfl
      exact ⟨n, route, rfl, hroute, rfl⟩
    · rintro ⟨n', route', hn, hroute', rfl⟩
      cases hn
      rw [List.append_cancel_left (hroute.symm.trans hroute')]
  · rw [if_neg h]
    refine ⟨nofun, fun ⟨n, route, hp, hroute, _⟩ => ?_⟩
    exact absurd (contains_iff.mpr ⟨n, route, hp, hroute⟩) h

/-- Child by child, a route leads where it ends, or nowhere if it leaves the tree. -/
theorem foldlM_child? {tree : Tree} (n : tree.Node) (route : List Nat) :
    route.foldlM child? n = at? tree (n.route ++ route) := by
  induction route generalizing n with
  | nil => rw [List.append_nil, at?_eq_some.mpr rfl, List.foldlM_nil]; rfl
  | cons i route ih =>
      rw [List.foldlM_cons, List.append_cons]
      cases hchild : n.child? i with
      | some c =>
          rw [← child?_eq_some.mp hchild]
          exact ih c
      | none =>
          refine (Option.eq_none_iff_forall_ne_some.mpr fun b hb => ?_).symm
          have hinside : (tree.sub? (n.route ++ [i])).isSome :=
            Tree.isSome_sub?_of_append (at?_eq_some.mp hb ▸ b.inside)
          have hsome : n.child? i = some ⟨_, hinside⟩ := at?_eq_some.mpr rfl
          rw [hchild] at hsome
          cases hsome

theorem resolve?_eq_some {n : s.document.tree.Node} : s.resolve? r = some n ↔
    n.route = s.root.route ++ r.route ∧ n.tag = r.tag ∧ ∀ name ∈ r.name, n.name = some name := by
  unfold resolve?
  rw [foldlM_child?, Option.filter_eq_some_iff, at?_eq_some, Bool.and_eq_true, beq_iff_eq, Bool.or_eq_true,
    Option.isNone_iff_eq_none, beq_iff_eq]
  refine and_congr_right fun _ => and_congr_right fun _ => ?_
  cases r.name with
  | none => simp
  | some name => simp

/-- The reference to a node resolves to the node at the same route from the root, if it has the same tag and, where
there was a name, the same name. -/
theorem resolve?_of_refer? {n : s.document.tree.Node} (h : s.refer? ⟨s.document, n⟩ = some r)
    {m : t.document.tree.Node} : t.resolve? r = some m ↔
      (∃ route, n.route = s.root.route ++ route ∧ m.route = t.root.route ++ route) ∧
        m.tag = n.tag ∧ ∀ name ∈ n.name, m.name = some name := by
  obtain ⟨n', route, hn, hroute, rfl⟩ := refer?_eq_some.mp h
  cases hn
  rw [resolve?_eq_some]
  refine and_congr_left fun _ => ⟨fun hm => ⟨route, hroute, hm⟩, fun ⟨route', hroute', hm⟩ => ?_⟩
  rw [hm, List.append_cancel_left (hroute.symm.trans hroute')]

theorem resolve?_self {n : s.document.tree.Node} (h : s.refer? ⟨s.document, n⟩ = some r) : s.resolve? r = some n := by
  obtain ⟨n', route, hn, hroute, -⟩ := refer?_eq_some.mp h
  cases hn
  exact (resolve?_of_refer? h).mpr ⟨⟨route, hroute, hroute⟩, rfl, fun _ hname => hname⟩

theorem refer?_of_root_eq_top (h : s.root = .top s.document.tree) (n : s.document.tree.Node) :
    s.refer? ⟨s.document, n⟩ = some ⟨s.id, n.route, n.tag, n.name⟩ :=
  refer?_eq_some.mpr ⟨n, n.route, rfl, by rw [h]; rfl, rfl⟩

end TreeQuery.Snapshot
