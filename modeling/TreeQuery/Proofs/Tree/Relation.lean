import Mathlib.Data.List.Basic
import Mathlib.Data.List.Induction
import Mathlib.Logic.Relation
import TreeQuery.Tree.Node

/-!
# Relations between the nodes of a tree

The neighbours that `Node` finds on its way through the tree, as relations that mention only which node is which child
of which: `ChildAt p i n`, its closure for the nodes below, and a common parent for siblings.

* `sub?_append`, `mem_routes`, `mem_all`: a route is followed piece by piece, and all routes inside the tree are listed;
* `ChildAt`, `IsParentOf`, `IsSiblingBefore`;
* `ChildAt.sub_eq`, `exists_childAt`: the relation is the one that the children of the subtrees give;
* `below_iff`, `strictlyBelow_iff`: closures of the relation as statements about routes;
* `mem_children`, `parent?_eq_some`, `mem_ancestors`, `mem_descendants`, `mem_earlierSiblings`, `mem_laterSiblings`;
* `ChildAt.index?`, `ChildAt.siblings`: a node among its siblings;
* `ChildAt.ancestors`, `induction_down`: the nodes above, one by one, and induction from the top down.
-/

namespace TreeQuery.Tree

set_option autoImplicit false

/-- A filter that keeps everything keeps the places. -/
theorem getElem?_filterMap_of_isSome {α β : Type} {f : α → Option β} {l : List α} (h : ∀ x ∈ l, (f x).isSome)
    (i : Nat) : (l.filterMap f)[i]? = l[i]?.bind f := by
  induction l generalizing i with
  | nil => rfl
  | cons x l ih =>
      obtain ⟨y, hy⟩ := Option.isSome_iff_exists.mp (h x List.mem_cons_self)
      rw [List.filterMap_cons_some hy]
      cases i with
      | zero => rw [List.getElem?_cons_zero, List.getElem?_cons_zero, Option.bind_some, hy]
      | succ i => exact ih (fun z hz => h z (List.mem_cons_of_mem x hz)) i

/-! ## Routes -/

theorem sub?_append (t : Tree) (r r' : List Nat) : t.sub? (r ++ r') = (t.sub? r).bind (·.sub? r') := by
  induction r generalizing t with
  | nil => rfl
  | cons i r ih =>
      rw [List.cons_append, sub?, sub?]
      cases t.children[i]? with
      | none => rfl
      | some c => exact ih c

theorem isSome_sub?_of_append {t : Tree} {r r' : List Nat} (h : (t.sub? (r ++ r')).isSome) : (t.sub? r).isSome := by
  rw [sub?_append] at h
  exact Option.isSome_of_isSome_bind h

mutual

/-- The routes that stay inside the tree are exactly those that are listed. -/
theorem mem_routes : (t : Tree) → (r : List Nat) → (r ∈ t.routes ↔ (t.sub? r).isSome)
  | node l cs, [] => by simp [routes, sub?]
  | node l cs, j :: r => by
    rw [routes, List.mem_cons, mem_routesFrom 0 cs (j :: r), sub?]
    constructor
    · rintro (h | ⟨j', r', c, h, hc, hr⟩)
      · cases h
      · obtain ⟨rfl, rfl⟩ := List.cons.inj h
        rw [Nat.zero_add, children, hc]
        exact hr
    · intro h
      obtain ⟨c, hc⟩ := Option.isSome_iff_exists.mp (Option.isSome_of_isSome_bind h)
      rw [hc] at h
      exact .inr ⟨j, r, c, by rw [Nat.zero_add], hc, h⟩

theorem mem_routesFrom (i : Nat) : (cs : List Tree) → (r : List Nat) →
    (r ∈ routesFrom i cs ↔ ∃ j r' c, r = (i + j) :: r' ∧ cs[j]? = some c ∧ (c.sub? r').isSome)
  | [], r => by simp [routesFrom]
  | c :: cs, r => by
    rw [routesFrom, List.mem_append, List.mem_map, mem_routesFrom (i + 1) cs r]
    constructor
    · rintro (⟨r', hr', rfl⟩ | ⟨j, r', d, rfl, hd, hr'⟩)
      · exact ⟨0, r', c, rfl, rfl, (mem_routes c r').mp hr'⟩
      · exact ⟨j + 1, r', d, by rw [Nat.add_right_comm, Nat.add_assoc], hd, hr'⟩
    · rintro ⟨j, r', d, rfl, hd, hr'⟩
      cases j with
      | zero =>
          obtain rfl := Option.some.inj hd
          exact .inl ⟨r', (mem_routes c r').mpr hr', rfl⟩
      | succ j => exact .inr ⟨j, r', d, by rw [Nat.add_right_comm, Nat.add_assoc], hd, hr'⟩

end

/-- The first route listed is the empty one, and it is listed once. -/
theorem mem_tail_routes (t : Tree) (r : List Nat) : r ∈ t.routes.tail ↔ r ≠ [] ∧ (t.sub? r).isSome := by
  cases t with
  | node l cs =>
      rw [← mem_routes, routes, List.tail_cons, List.mem_cons, mem_routesFrom]
      constructor
      · rintro ⟨j, r', c, rfl, hc⟩
        exact ⟨nofun, .inr ⟨j, r', c, rfl, hc⟩⟩
      · rintro ⟨hne, h | h⟩
        · exact absurd h hne
        · exact h

namespace Node

variable {t : Tree} {a b n p : t.Node}

theorem ext_route (h : a.route = b.route) : a = b := by
  cases a
  cases b
  cases h
  rfl

theorem at?_eq_some {r : List Nat} : at? t r = some n ↔ n.route = r := by
  unfold at?
  split
  · rename_i h
    rw [Option.some.injEq]
    exact ⟨fun h => h ▸ rfl, fun hr => ext_route hr.symm⟩
  · rename_i h
    exact ⟨nofun, fun hr => absurd (hr ▸ n.inside) h⟩

/-- All nodes of the tree are listed. -/
theorem mem_all (n : t.Node) : n ∈ all t :=
  List.mem_filterMap.mpr ⟨n.route, (mem_routes t n.route).mpr n.inside, at?_eq_some.mpr rfl⟩

theorem sub?_route (n : t.Node) : t.sub? n.route = some n.sub := (Option.some_get n.inside).symm

/-! ## Parents and siblings -/

/-- `n` is the child of `p` at index `i`. -/
def ChildAt (p : t.Node) (i : Nat) (n : t.Node) : Prop := n.route = p.route ++ [i]

def IsParentOf (p n : t.Node) : Prop := ∃ i, p.ChildAt i n

/-- The nodes are children of one node, `a` before `b`. -/
def IsSiblingBefore (a b : t.Node) : Prop := ∃ p i j, ChildAt p i a ∧ ChildAt p j b ∧ i < j

theorem ChildAt.sub_eq {i : Nat} (h : p.ChildAt i n) : p.sub.children[i]? = some n.sub := by
  have hsub := n.sub?_route
  rw [h, sub?_append, p.sub?_route, Option.bind_some, sub?] at hsub
  simpa [sub?] using hsub

/-- Every child of the subtree at a node is the subtree at a child of the node. -/
theorem exists_childAt {i : Nat} {c : Tree} (h : p.sub.children[i]? = some c) :
    ∃ n : t.Node, p.ChildAt i n ∧ n.sub = c := by
  have hinside : t.sub? (p.route ++ [i]) = some c := by
    rw [sub?_append, p.sub?_route, Option.bind_some, sub?, h]
    rfl
  let n : t.Node := ⟨p.route ++ [i], by rw [hinside]; rfl⟩
  have hsub : n.sub = c := Option.some.inj (n.sub?_route.symm.trans hinside)
  exact ⟨n, rfl, hsub⟩

theorem ChildAt.index_lt {i : Nat} (h : p.ChildAt i n) : i < p.childCount :=
  (List.getElem?_eq_some_iff.mp h.sub_eq).1

theorem ChildAt.unique {i j : Nat} {q : t.Node} (h : p.ChildAt i n) (h' : q.ChildAt j n) : p = q ∧ i = j := by
  obtain ⟨hroute, hij⟩ := List.append_inj' (h.symm.trans h') rfl
  exact ⟨ext_route hroute, List.singleton_inj.mp hij⟩

theorem child?_eq_some {i : Nat} : p.child? i = some n ↔ p.ChildAt i n := at?_eq_some

/-- No index below the number of children is skipped, so that children stand at their indices. -/
theorem getElem?_children {i : Nat} : p.children[i]? = some n ↔ p.ChildAt i n := by
  have hchild : ∀ j ∈ List.range p.childCount, (p.child? j).isSome := by
    intro j hj
    have hj : j < p.sub.children.length := List.mem_range.mp hj
    obtain ⟨c, hc, -⟩ := exists_childAt (List.getElem?_eq_getElem hj)
    rw [child?_eq_some.mpr hc]
    rfl
  unfold children
  rw [getElem?_filterMap_of_isSome hchild]
  constructor
  · intro h
    obtain ⟨j, hj, hn⟩ := Option.bind_eq_some_iff.mp h
    obtain ⟨_, hji⟩ := List.getElem?_eq_some_iff.mp hj
    rw [List.getElem_range] at hji
    exact child?_eq_some.mp (hji ▸ hn)
  · intro h
    rw [List.getElem?_range h.index_lt]
    exact child?_eq_some.mpr h

theorem mem_children : n ∈ p.children ↔ p.IsParentOf n := by
  rw [List.mem_iff_getElem?]
  exact exists_congr fun i => getElem?_children

theorem parent?_eq_some : n.parent? = some p ↔ p.IsParentOf n := by
  unfold parent?
  split
  · rename_i h
    refine ⟨nofun, fun ⟨i, hi⟩ => ?_⟩
    rw [hi] at h
    simp at h
  · rename_i h
    rw [at?_eq_some]
    have hne : n.route ≠ [] := fun h' => h (List.isEmpty_iff.mpr h')
    constructor
    · intro hp
      refine ⟨n.route.getLast hne, ?_⟩
      rw [ChildAt, hp, List.dropLast_concat_getLast]
    · rintro ⟨i, hi⟩
      rw [hi, List.dropLast_concat]

/-- A node is found among the children of its parent where it stands, since it stands there only once. -/
theorem ChildAt.index? {i : Nat} (h : p.ChildAt i n) : n.index? = some i := by
  obtain ⟨hlt, hn⟩ := List.getElem?_eq_some_iff.mp (getElem?_children.mpr h)
  rw [Node.index?, parent?_eq_some.mpr ⟨i, h⟩, Option.bind_some, List.idxOf?_eq_some_iff]
  refine ⟨hlt, hn, fun j hji hj => ?_⟩
  have hchild : p.ChildAt j n := getElem?_children.mp (List.getElem?_eq_some_iff.mpr ⟨Nat.lt_trans hji hlt, hj⟩)
  exact absurd (h.unique hchild).2 (Nat.ne_of_gt hji)

theorem ChildAt.earlierSiblings {i : Nat} (h : p.ChildAt i n) : n.earlierSiblings = (p.children.take i).reverse := by
  rw [Node.earlierSiblings, parent?_eq_some.mpr ⟨i, h⟩, h.index?]

theorem ChildAt.laterSiblings {i : Nat} (h : p.ChildAt i n) : n.laterSiblings = p.children.drop (i + 1) := by
  rw [Node.laterSiblings, parent?_eq_some.mpr ⟨i, h⟩, h.index?]

/-- The siblings before a node, the node and those after it are the children of its parent. -/
theorem ChildAt.siblings {i : Nat} (h : p.ChildAt i n) :
    n.earlierSiblings.reverse ++ n :: n.laterSiblings = p.children := by
  obtain ⟨hlt, hn⟩ := List.getElem?_eq_some_iff.mp (getElem?_children.mpr h)
  rw [h.earlierSiblings, h.laterSiblings, List.reverse_reverse, ← hn, ← List.drop_eq_getElem_cons hlt,
    List.take_append_drop]

theorem siblings_of_parent?_eq_none (h : n.parent? = none) : n.earlierSiblings = [] ∧ n.laterSiblings = [] := by
  unfold Node.earlierSiblings Node.laterSiblings
  rw [h]
  exact ⟨rfl, rfl⟩

theorem mem_earlierSiblings : a ∈ n.earlierSiblings ↔ a.IsSiblingBefore n := by
  cases hparent : n.parent? with
  | none =>
      rw [(siblings_of_parent?_eq_none hparent).1]
      refine ⟨nofun, fun ⟨p, i, j, _, hn, _⟩ => ?_⟩
      rw [parent?_eq_some.mpr ⟨j, hn⟩] at hparent
      cases hparent
  | some p =>
      obtain ⟨j, hn⟩ := parent?_eq_some.mp hparent
      rw [hn.earlierSiblings, List.mem_reverse, List.mem_iff_getElem?]
      constructor
      · rintro ⟨i, ha⟩
        rw [List.getElem?_take] at ha
        split at ha
        · rename_i hij
          exact ⟨p, i, j, getElem?_children.mp ha, hn, hij⟩
        · cases ha
      · rintro ⟨q, i, j', ha, hn', hij⟩
        obtain ⟨rfl, rfl⟩ := hn.unique hn'
        exact ⟨i, by rw [List.getElem?_take, if_pos hij]; exact getElem?_children.mpr ha⟩

theorem mem_laterSiblings : a ∈ n.laterSiblings ↔ n.IsSiblingBefore a := by
  cases hparent : n.parent? with
  | none =>
      rw [(siblings_of_parent?_eq_none hparent).2]
      refine ⟨nofun, fun ⟨p, i, j, hn, _⟩ => ?_⟩
      rw [parent?_eq_some.mpr ⟨i, hn⟩] at hparent
      cases hparent
  | some p =>
      obtain ⟨i, hn⟩ := parent?_eq_some.mp hparent
      rw [hn.laterSiblings, List.mem_iff_getElem?]
      simp only [List.getElem?_drop, getElem?_children]
      constructor
      · rintro ⟨k, ha⟩
        exact ⟨p, i, i + 1 + k, hn, ha, by omega⟩
      · rintro ⟨q, i', j, hn', ha, hij⟩
        obtain ⟨rfl, rfl⟩ := hn.unique hn'
        exact ⟨j - (i + 1), by rwa [show i + 1 + (j - (i + 1)) = j by omega]⟩

/-! ## Above and below -/

/-- A node lies below those whose routes begin its own. -/
theorem below_iff : Relation.ReflTransGen IsParentOf a b ↔ ∃ r, b.route = a.route ++ r := by
  constructor
  · intro h
    induction h with
    | refl => exact ⟨[], (List.append_nil _).symm⟩
    | tail _ hbc ih =>
        obtain ⟨r, hr⟩ := ih
        obtain ⟨i, hi⟩ := hbc
        exact ⟨r ++ [i], by rw [hi, hr, List.append_assoc]⟩
  · rintro ⟨r, hr⟩
    induction r using List.reverseRecOn generalizing b with
    | nil =>
        obtain rfl : b = a := ext_route (by rw [hr, List.append_nil])
        exact .refl
    | append_singleton r i ih =>
        rw [← List.append_assoc] at hr
        have hinside : (t.sub? (a.route ++ r)).isSome := isSome_sub?_of_append (hr ▸ b.inside)
        have hp : ChildAt ⟨a.route ++ r, hinside⟩ i b := hr
        exact .tail (ih rfl) ⟨i, hp⟩

theorem strictlyBelow_iff : Relation.TransGen IsParentOf a b ↔ ∃ r, r ≠ [] ∧ b.route = a.route ++ r := by
  rw [Relation.TransGen.head'_iff]
  constructor
  · rintro ⟨c, ⟨i, hi⟩, hcb⟩
    obtain ⟨r, hr⟩ := below_iff.mp hcb
    exact ⟨i :: r, nofun, by rw [hr, hi, List.append_assoc, List.singleton_append]⟩
  · rintro ⟨r, hne, hr⟩
    cases r with
    | nil => exact absurd rfl hne
    | cons i r =>
        rw [← List.singleton_append, ← List.append_assoc] at hr
        have hinside : (t.sub? (a.route ++ [i])).isSome := isSome_sub?_of_append (hr ▸ b.inside)
        have hc : ChildAt a i ⟨a.route ++ [i], hinside⟩ := rfl
        exact ⟨_, ⟨i, hc⟩, below_iff.mpr ⟨r, hr⟩⟩

theorem mem_descendants : b ∈ a.descendants ↔ Relation.TransGen IsParentOf a b := by
  rw [strictlyBelow_iff, descendants, List.mem_filterMap]
  refine exists_congr fun r => ?_
  rw [mem_tail_routes, at?_eq_some, and_assoc]
  refine and_congr_right fun _ => and_iff_right_of_imp fun hr => ?_
  have hinside := b.inside
  rw [hr, sub?_append, a.sub?_route] at hinside
  exact hinside

/-- Above a node are its parent and what is above that. -/
theorem ChildAt.ancestors {i : Nat} (h : p.ChildAt i n) : n.ancestors = p :: p.ancestors := by
  have hlength : n.route.length = p.route.length + 1 := by rw [h, List.length_append, List.length_singleton]
  rw [Node.ancestors, hlength, climb, parent?_eq_some.mpr ⟨i, h⟩]
  rfl

/-- What holds of the top, and of the children of each node of which it holds, holds of all nodes. -/
@[elab_as_elim]
theorem induction_down {motive : t.Node → Prop} (top : motive (top t))
    (child : ∀ p i n, ChildAt p i n → motive p → motive n) (n : t.Node) : motive n := by
  obtain ⟨r, hr⟩ : ∃ r, n.route = r := ⟨_, rfl⟩
  induction r using List.reverseRecOn generalizing n with
  | nil =>
      obtain rfl : n = Node.top t := ext_route hr
      exact top
  | append_singleton r i ih =>
      have hinside : (t.sub? r).isSome := isSome_sub?_of_append (hr ▸ n.inside)
      exact child ⟨r, hinside⟩ i n hr (ih _ rfl)

theorem mem_ancestors : b ∈ a.ancestors ↔ Relation.TransGen IsParentOf b a := by
  induction a using induction_down with
  | top =>
      refine ⟨nofun, fun h => ?_⟩
      obtain ⟨r, hne, hr⟩ := strictlyBelow_iff.mp h
      exact absurd (List.append_eq_nil_iff.mp hr.symm).2 hne
  | child p i n hn ih =>
      rw [hn.ancestors, List.mem_cons, ih]
      constructor
      · rintro (rfl | h)
        · exact .single ⟨i, hn⟩
        · exact h.tail ⟨i, hn⟩
      · intro h
        obtain ⟨q, hq, j, hj⟩ := Relation.TransGen.tail'_iff.mp h
        obtain ⟨rfl, -⟩ := hj.unique hn
        exact (Relation.reflTransGen_iff_eq_or_transGen.mp hq).imp_left Eq.symm

end Node

end TreeQuery.Tree
