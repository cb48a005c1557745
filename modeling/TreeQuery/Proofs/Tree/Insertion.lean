import Mathlib.Data.List.Forall2
import Mathlib.Data.List.InsertIdx
import TreeQuery.Proofs.Tree.Relation

/-!
# Putting a child into a tree

A subtree is put in as child `i` of a node `p`. The children of `p` from index `i` on, and what lies below them, move to
other routes; all other nodes are kept where they are. A kept node keeps its label. It also keeps its children with
their tags, unless it is `p` itself, which has one more child; so a kept node sees the same tags among its earlier
siblings as before.

* `Tree.insertAt`, `Node.insert`: the tree after the insertion;
* `Node.MovesAt`: the nodes that move;
* `Node.exists_kept`, `Node.label_of_kept`, `Node.tags_of_kept`: what the others keep;
* `Node.forall₂_ancestors`: nodes at the same route of two trees have the same routes above them.
-/

namespace TreeQuery.Tree

set_option autoImplicit false

/-- The tags of the children. -/
def tags (t : Tree) : List Text := t.children.map (·.label.tag)

/-- The tree with `x` put in as child `i` of the node at the end of a route. -/
def insertAt (x : Tree) (i : Nat) : List Nat → Tree → Tree
  | [], node l cs => node l (cs.insertIdx i x)
  | j :: route, node l cs => node l (cs.modify j (insertAt x i route))

variable {x : Tree} {i : Nat}

theorem label_insertAt (route : List Nat) (t : Tree) : (insertAt x i route t).label = t.label := by
  cases t
  cases route with
  | nil => rfl
  | cons j route => rfl

theorem tags_insertAt_nil (t : Tree) : (insertAt x i [] t).tags = t.tags.insertIdx i x.label.tag := by
  cases t
  exact List.map_insertIdx _ _ _ _

/-- Deeper down, a child is replaced by one with the same label. -/
theorem tags_insertAt_cons (j : Nat) (route : List Nat) (t : Tree) : (insertAt x i (j :: route) t).tags = t.tags := by
  cases t with
  | node l cs =>
      refine List.ext_getElem? fun k => ?_
      simp only [tags, insertAt, children, List.getElem?_map, List.getElem?_modify]
      cases cs[k]? with
      | none => rfl
      | some c => by_cases hjk : j = k <;> simp [hjk, label_insertAt]

/-- At a route that does not move, there is the same label as before, above children with the same tags. -/
theorem sub?_insertAt {p r : List Nat} {t s : Tree} (hr : ∀ j u, r = p ++ j :: u → j < i) (h : t.sub? r = some s) :
    ∃ s', (insertAt x i p t).sub? r = some s' ∧ s'.label = s.label ∧
      s'.tags = if r = p then s.tags.insertIdx i x.label.tag else s.tags := by
  induction p generalizing t r with
  | nil =>
      cases r with
      | nil =>
          obtain rfl := Option.some.inj h
          exact ⟨_, rfl, label_insertAt [] t, tags_insertAt_nil t⟩
      | cons j u =>
          have hj : j < i := hr j u rfl
          cases t
          refine ⟨s, ?_, rfl, rfl⟩
          rw [insertAt, sub?, children, List.getElem?_insertIdx_of_lt hj]
          exact h
  | cons k p ih =>
      cases r with
      | nil =>
          obtain rfl := Option.some.inj h
          exact ⟨_, rfl, label_insertAt (k :: p) t, tags_insertAt_cons k p t⟩
      | cons j u =>
          cases t with
          | node l cs =>
              by_cases hjk : k = j
              · subst hjk
                obtain ⟨c, hc, hs⟩ := Option.bind_eq_some_iff.mp h
                obtain ⟨s', hs', hlabel, htags⟩ := ih (fun j' u' hu => hr j' u' (congrArg (k :: ·) hu)) hs
                refine ⟨s', ?_, hlabel, ?_⟩
                · rw [insertAt, sub?, children, List.getElem?_modify_eq, show cs[k]? = some c from hc]
                  exact hs'
                · simpa using htags
              · refine ⟨s, ?_, rfl, by simp [Ne.symm hjk]⟩
                rw [insertAt, sub?, children, List.getElem?_modify_ne _ _ hjk]
                exact h

namespace Node

variable {t u : Tree} {p n : t.Node}

/-! ## Nodes that move and nodes that are kept -/

/-- The tree with `x` put in as child `i` of `p`. -/
def insert (p : t.Node) (i : Nat) (x : Tree) : Tree := insertAt x i p.route t

/-- The node is a child of `p` at index `i` or later, or lies below one. -/
def MovesAt (p : t.Node) (i : Nat) (n : t.Node) : Prop :=
  ∃ j c, i ≤ j ∧ p.ChildAt j c ∧ Relation.ReflTransGen IsParentOf c n

theorem movesAt_iff : p.MovesAt i n ↔ ∃ j r, i ≤ j ∧ n.route = p.route ++ j :: r := by
  constructor
  · rintro ⟨j, c, hij, hc, hn⟩
    obtain ⟨r, hr⟩ := below_iff.mp hn
    exact ⟨j, r, hij, by rw [hr, hc, List.append_assoc, List.singleton_append]⟩
  · rintro ⟨j, r, hij, hr⟩
    rw [List.append_cons] at hr
    have hinside : (t.sub? (p.route ++ [j])).isSome := isSome_sub?_of_append (hr ▸ n.inside)
    exact ⟨j, ⟨_, hinside⟩, hij, rfl, below_iff.mpr ⟨r, hr⟩⟩

/-- What lies below a node that moves, moves with it. -/
theorem MovesAt.below {a : t.Node} (ha : p.MovesAt i a) (h : Relation.ReflTransGen IsParentOf a n) : p.MovesAt i n := by
  obtain ⟨j, c, hij, hc, hca⟩ := ha
  exact ⟨j, c, hij, hc, hca.trans h⟩

/-- A child of `p` that is kept comes before the new one. -/
theorem index_lt_of_kept {j : Nat} (hn : ¬ p.MovesAt i n) (h : p.ChildAt j n) : j < i :=
  Nat.lt_of_not_le fun hij => hn ⟨j, n, hij, h, .refl⟩

theorem sub?_of_kept (hn : ¬ p.MovesAt i n) :
    ∃ s', (p.insert i x).sub? n.route = some s' ∧ s'.label = n.label ∧
      s'.tags = if n.route = p.route then n.sub.tags.insertIdx i x.label.tag else n.sub.tags := by
  refine sub?_insertAt (fun j r hr => ?_) n.sub?_route
  exact Nat.lt_of_not_le fun hij => hn (movesAt_iff.mpr ⟨j, r, hij, hr⟩)

theorem exists_kept (x : Tree) (hn : ¬ p.MovesAt i n) : ∃ n' : (p.insert i x).Node, n'.route = n.route := by
  obtain ⟨s', hs', -⟩ := sub?_of_kept (x := x) hn
  exact ⟨⟨n.route, by rw [hs']; rfl⟩, rfl⟩

section Kept

variable {n' : (p.insert i x).Node}

theorem label_of_kept (hn : ¬ p.MovesAt i n) (h : n'.route = n.route) : n'.label = n.label := by
  obtain ⟨s', hs', hlabel, -⟩ := sub?_of_kept (x := x) hn
  rw [← h, n'.sub?_route] at hs'
  obtain rfl := Option.some.inj hs'
  exact hlabel

theorem tag_of_kept (hn : ¬ p.MovesAt i n) (h : n'.route = n.route) : n'.tag = n.tag :=
  congrArg Label.tag (label_of_kept hn h)

theorem name_of_kept (hn : ¬ p.MovesAt i n) (h : n'.route = n.route) : n'.name = n.name :=
  congrArg Label.name (label_of_kept hn h)

theorem tags_of_kept (hn : ¬ p.MovesAt i n) (h : n'.route = n.route) :
    n'.sub.tags = if n = p then n.sub.tags.insertIdx i x.label.tag else n.sub.tags := by
  obtain ⟨s', hs', -, htags⟩ := sub?_of_kept (x := x) hn
  rw [← h, n'.sub?_route] at hs'
  obtain rfl := Option.some.inj hs'
  have hroute : n.route = p.route ↔ n = p := ⟨ext_route, fun h => h ▸ rfl⟩
  simpa only [hroute] using htags

end Kept

/-! ## The same route in two trees -/

/-- A node at the same route of another tree has a parent at the same route there. -/
theorem exists_parentAt {j : Nat} {n' : u.Node} (hn : p.ChildAt j n) (h : n'.route = n.route) :
    ∃ p' : u.Node, p'.route = p.route ∧ p'.ChildAt j n' := by
  have hroute : n'.route = p.route ++ [j] := h.trans hn
  have hinside : (u.sub? p.route).isSome := isSome_sub?_of_append (hroute ▸ n'.inside)
  exact ⟨⟨p.route, hinside⟩, rfl, hroute⟩

theorem forall₂_ancestors {n' : u.Node} (h : n'.route = n.route) :
    List.Forall₂ (fun a a' => a'.route = a.route) n.ancestors n'.ancestors := by
  induction n using induction_down generalizing n' with
  | top =>
      obtain rfl : n' = top u := ext_route h
      exact .nil
  | child p j n hn ih =>
      obtain ⟨p', hp', hn'⟩ := exists_parentAt hn h
      rw [hn.ancestors, hn'.ancestors]
      exact .cons hp' (ih hp')

end Node

end TreeQuery.Tree
