import Mathlib.Data.List.Perm.Basic
import TreeQuery.Proofs.Tree.Insertion
import TreeQuery.Proofs.Tree.Reference

/-!
# Names that survive an insertion

A stable path reads little of a tree: the label of the node and of the nodes above it, the tags of the siblings before
each of them, and the number of blocks among the children of one parent. The depth of a node reads only the tags above
it, and a reference only its own tag and name. A child that is put in later than all of these disturbs none of them,
except that a block put in beside a block makes the other one visible in paths.

* `Tree.Node.ChildAt.sameTagIndex`, `Naming.isBody_of_childAt`: what the parts of a name read of the parent;
* `Naming.path_eq_of_forall₂`, `Naming.depth_eq_of_forall₂`: nodes of two trees that have the same name or depth;
* `Naming.segment_of_kept`, `Naming.isBody_of_kept`: the parts of a name after an insertion;
* `Naming.kept_addresses`: paths, depths and references after an insertion.
-/

namespace TreeQuery

set_option autoImplicit false

open Tree.Node

/-! ## What names read of the parent -/

namespace Tree.Node

variable {t : Tree} {p n : t.Node} {j : Nat}

theorem map_sub_children (p : t.Node) : p.children.map sub = p.sub.children := by
  refine List.ext_getElem? fun i => ?_
  rw [List.getElem?_map]
  cases hc : p.sub.children[i]? with
  | some c =>
      obtain ⟨n, hn, hsub⟩ := exists_childAt hc
      rw [getElem?_children.mpr hn, Option.map_some, hsub]
  | none =>
      rw [Option.map_eq_none_iff]
      refine Option.eq_none_iff_forall_ne_some.mpr fun n hn => ?_
      rw [(getElem?_children.mp hn).sub_eq] at hc
      cases hc

theorem map_tag_children (p : t.Node) : p.children.map tag = p.sub.tags := by
  rw [tags, ← map_sub_children, List.map_map]
  rfl

/-- The place among the siblings with the same tag depends on the tags of the earlier siblings. -/
theorem ChildAt.sameTagIndex (h : p.ChildAt j n) : n.sameTagIndex = 1 + (p.sub.tags.take j).count n.tag := by
  rw [Node.sameTagIndex, h.earlierSiblings, List.countP_reverse, ← map_tag_children, ← List.map_take, List.count,
    List.countP_map]
  rfl

end Tree.Node

namespace Naming

variable {g : Naming} {t : Tree} {p n : t.Node} {j : Nat}

theorem isBody_top : g.isBody (.top t) = false := by
  unfold isBody
  exact Bool.and_false _

/-- Whether a block is the body of its parent depends on the tags of all children. -/
theorem isBody_of_childAt (h : p.ChildAt j n) :
    g.isBody n = (g.vocabulary.isBlock n.tag && p.sub.tags.countP g.vocabulary.isBlock == 1) := by
  rw [isBody, parent?_eq_some.mpr ⟨j, h⟩, ← map_tag_children, List.countP_map]
  rfl

end Naming

/-! ## Nodes of two trees -/

theorem forall₂_takeWhile {α β : Type} {R : α → β → Prop} {f : α → Bool} {g : β → Bool} {xs : List α} {ys : List β}
    (hfg : ∀ a b, R a b → g b = f a) (h : List.Forall₂ R xs ys) :
    List.Forall₂ R (xs.takeWhile f) (ys.takeWhile g) := by
  induction h with
  | nil => exact .nil
  | @cons a b xs ys hab _ ih =>
      rw [List.takeWhile_cons, List.takeWhile_cons, hfg a b hab]
      cases f a with
      | true => exact .cons hab ih
      | false => exact .nil

theorem forall₂_filter {α β : Type} {R : α → β → Prop} {f : α → Bool} {g : β → Bool} {xs : List α} {ys : List β}
    (hfg : ∀ a b, R a b → g b = f a) (h : List.Forall₂ R xs ys) : List.Forall₂ R (xs.filter f) (ys.filter g) :=
  List.rel_filter (fun a b hab => iff_of_eq (congrArg (· = true) (hfg a b hab).symm)) h

namespace Naming

variable {g : Naming} {t u : Tree} {n : t.Node} {n' : u.Node} {b : Option t.Node} {b' : Option u.Node}

/-- The two boundaries are at the same route, so they stop at the same places. -/
theorem ne_boundary_eq {a : t.Node} {a' : u.Node} (hb : b'.map route = b.map route) (ha : a'.route = a.route) :
    (some a' != b') = (some a != b) := by
  have hiff : some a' = b' ↔ some a = b := by
    cases b with
    | none => simp_all
    | some c =>
        cases b' with
        | none => simp at hb
        | some c' =>
            have hc : c'.route = c.route := Option.some.inj hb
            rw [Option.some.injEq, Option.some.injEq]
            constructor
            · rintro rfl
              exact ext_route (ha.symm.trans hc)
            · rintro rfl
              exact ext_route (ha.trans hc.symm)
  rw [Bool.eq_iff_iff, bne_iff_ne, bne_iff_ne, ne_eq, ne_eq, hiff]

/-- A path is put together from the segments of the nodes that contribute one. -/
theorem path_eq (n : t.Node) (b : Option t.Node) :
    g.path n b = (g.segment n :: ((enclosing n b).filter g.contributes).map g.segment).reverse.flatMap (0x2f :: ·) := by
  rw [path, ← List.map_cons, ← List.map_reverse, List.flatMap_map]

/-- Nodes with equal segments have the same path if the nodes above them contribute the same, one by one. -/
theorem path_eq_of_forall₂ (hn : g.segment n' = g.segment n)
    (h : List.Forall₂ (fun a a' => a'.route = a.route ∧ g.segment a' = g.segment a ∧ g.contributes a' = g.contributes a)
      n.ancestors n'.ancestors) (hb : b'.map route = b.map route) : g.path n' b' = g.path n b := by
  have henclosing := forall₂_takeWhile (fun a a' ha => ne_boundary_eq hb ha.1) h
  have hfilter := forall₂_filter (f := g.contributes) (g := g.contributes) (fun a a' ha => ha.2.2) henclosing
  have hsegments : ((enclosing n b).filter g.contributes).map g.segment =
      ((enclosing n' b').filter g.contributes).map g.segment := by
    rw [← List.forall₂_eq_eq_eq, List.forall₂_map_left_iff, List.forall₂_map_right_iff]
    exact hfilter.imp fun a a' ha => ha.2.1.symm
  rw [path_eq, path_eq, hn, hsegments]

theorem depth_eq_of_forall₂
    (h : List.Forall₂ (fun a a' => a'.route = a.route ∧ a'.tag = a.tag) n.ancestors n'.ancestors)
    (hb : b'.map route = b.map route) : g.depth n' b' = g.depth n b := by
  have hwithin := forall₂_takeWhile (f := fun m => some m != b && !m.route.isEmpty && !g.vocabulary.isDeclaration m.tag)
    (g := fun m => some m != b' && !m.route.isEmpty && !g.vocabulary.isDeclaration m.tag)
    (fun a a' ha => by rw [ne_boundary_eq hb ha.1, ha.1, ha.2]) h
  have hcounted := forall₂_filter (f := fun m => g.vocabulary.isStatement m.tag || g.vocabulary.isBlock m.tag)
    (g := fun m => g.vocabulary.isStatement m.tag || g.vocabulary.isBlock m.tag) (fun a a' ha => by rw [ha.2]) hwithin
  exact hcounted.length_eq.symm

end Naming

/-! ## Nodes that an insertion keeps -/

namespace Naming

variable {g : Naming} {t : Tree} {p n : t.Node} {i : Nat} {x : Tree} {n' : (p.insert i x).Node}

/-- The tags before a kept child are those before it was put beside the new one. -/
theorem take_tags_of_kept {q : t.Node} {q' : (p.insert i x).Node} {j : Nat} (hn : ¬ p.MovesAt i n)
    (hq : q.ChildAt j n) (h : q'.route = q.route) : q'.sub.tags.take j = q.sub.tags.take j := by
  have hkept : ¬ p.MovesAt i q := fun hmoves => hn (hmoves.below (.single ⟨j, hq⟩))
  rw [tags_of_kept hkept h]
  split
  · rename_i hqp
    subst hqp
    exact List.take_insertIdx_eq_take_of_le _ _ _ _ (Nat.le_of_lt (index_lt_of_kept hn hq))
  · rfl

theorem sameTagIndex_of_kept (hn : ¬ p.MovesAt i n) (h : n'.route = n.route) : n'.sameTagIndex = n.sameTagIndex := by
  have htag := tag_of_kept hn h
  induction n using induction_down with
  | top =>
      obtain rfl : n' = .top _ := ext_route h
      rfl
  | child q j n hq _ =>
      obtain ⟨q', hq', hn'⟩ := exists_parentAt hq h
      rw [hn'.sameTagIndex, hq.sameTagIndex, take_tags_of_kept hn hq hq', htag]

theorem segment_of_kept (hn : ¬ p.MovesAt i n) (h : n'.route = n.route) : g.segment n' = g.segment n := by
  rw [segment, segment, sameTagIndex_of_kept hn h, tag_of_kept hn h, name_of_kept hn h]

/-- A new child that is no block leaves the number of blocks as it is. -/
theorem countP_tags_of_kept (hi : i ≤ p.childCount) (hx : g.vocabulary.isBlock x.label.tag = false)
    (hn : ¬ p.MovesAt i n) (h : n'.route = n.route) :
    n'.sub.tags.countP g.vocabulary.isBlock = n.sub.tags.countP g.vocabulary.isBlock := by
  rw [tags_of_kept hn h]
  split
  · rename_i hnp
    subst hnp
    have hlength : i ≤ n.sub.tags.length := by rwa [Tree.tags, List.length_map]
    rw [(List.perm_insertIdx _ _ hlength).countP_eq, List.countP_cons_of_neg (by rw [hx]; exact Bool.false_ne_true)]
  · rfl

theorem isBody_of_kept (hi : i ≤ p.childCount) (hx : g.vocabulary.isBlock x.label.tag = false)
    (hn : ¬ p.MovesAt i n) (h : n'.route = n.route) : g.isBody n' = g.isBody n := by
  have htag := tag_of_kept hn h
  induction n using induction_down with
  | top =>
      obtain rfl : n' = .top _ := ext_route h
      rw [isBody_top, isBody_top]
  | child q j n hq _ =>
      have hkept : ¬ p.MovesAt i q := fun hmoves => hn (hmoves.below (.single ⟨j, hq⟩))
      obtain ⟨q', hq', hn'⟩ := exists_parentAt hq h
      rw [isBody_of_childAt hn', isBody_of_childAt hq, countP_tags_of_kept hi hx hkept hq', htag]

theorem forall₂_kept (hn : ¬ p.MovesAt i n) (h : n'.route = n.route) :
    List.Forall₂ (fun a a' => ¬ p.MovesAt i a ∧ a'.route = a.route) n.ancestors n'.ancestors := by
  refine (List.forall₂_and_left _ _).mpr ⟨fun a ha hmoves => ?_, forall₂_ancestors h⟩
  exact hn (hmoves.below (mem_ancestors.mp ha).to_reflTransGen)

theorem path_of_kept (hi : i ≤ p.childCount) (hx : g.vocabulary.isBlock x.label.tag = false) (hn : ¬ p.MovesAt i n)
    (h : n'.route = n.route) {b : Option t.Node} {b' : Option (p.insert i x).Node}
    (hb : b'.map route = b.map route) : g.path n' b' = g.path n b := by
  refine path_eq_of_forall₂ (segment_of_kept hn h) ((forall₂_kept hn h).imp fun a a' ⟨ha, hroute⟩ => ?_) hb
  refine ⟨hroute, segment_of_kept ha hroute, ?_⟩
  rw [contributes, contributes, isBody_of_kept hi hx ha hroute, tag_of_kept ha hroute]

theorem depth_of_kept (hn : ¬ p.MovesAt i n) (h : n'.route = n.route) {b : Option t.Node}
    {b' : Option (p.insert i x).Node} (hb : b'.map route = b.map route) : g.depth n' b' = g.depth n b := by
  refine depth_eq_of_forall₂ ((forall₂_kept hn h).imp fun a a' ⟨ha, hroute⟩ => ?_) hb
  exact ⟨hroute, tag_of_kept ha hroute⟩

/-- **A subtree is put in as child `i` of a node. Every node that does not move by that is found at its route in the new
tree, and there it has the same depth below every boundary that does not move either, and below none; it has the same
path, unless the new child is a block; and a reference that was made to it from the top resolves to it from the new
top.** -/
theorem kept_addresses (g : Naming) (p : t.Node) {i : Nat} (hi : i ≤ p.childCount) (x : Tree) {n : t.Node}
    (hn : ¬ p.MovesAt i n) :
    ∃ n' : (p.insert i x).Node, n'.route = n.route ∧
      (∀ b : Option t.Node, (∀ c ∈ b, ¬ p.MovesAt i c) →
        ∃ b' : Option (p.insert i x).Node, b'.map route = b.map route ∧ g.depth n' b' = g.depth n b ∧
          (g.vocabulary.isBlock x.label.tag = false → g.path n' b' = g.path n b)) ∧
      ∀ (id id' key key' : Nat) (file file' : Option Text),
        ∃ r, Snapshot.refer? ⟨id, ⟨key, t⟩, .top t, file⟩ ⟨⟨key, t⟩, n⟩ = some r ∧
          Snapshot.resolve? ⟨id', ⟨key', p.insert i x⟩, .top _, file'⟩ r = some n' := by
  obtain ⟨n', hroute⟩ := exists_kept x hn
  refine ⟨n', hroute, fun b hb => ?_, fun id id' key key' file file' => ?_⟩
  · have hboundary : ∃ b' : Option (p.insert i x).Node, b'.map route = b.map route := by
      cases b with
      | none => exact ⟨none, rfl⟩
      | some c =>
          obtain ⟨c', hc'⟩ := exists_kept x (hb c rfl)
          exact ⟨some c', congrArg some hc'⟩
    obtain ⟨b', hb'⟩ := hboundary
    exact ⟨b', hb', depth_of_kept hn hroute hb', fun hx => path_of_kept hi hx hn hroute hb'⟩
  · refine ⟨⟨id, n.route, n.tag, n.name⟩,
      Snapshot.refer?_of_root_eq_top (s := ⟨id, ⟨key, t⟩, .top t, file⟩) rfl n, ?_⟩
    refine Snapshot.resolve?_eq_some.mpr ⟨hroute, tag_of_kept hn hroute, fun name hname => ?_⟩
    exact (name_of_kept hn hroute).trans hname

/-- A method whose body holds two conditions. -/
def twoConditions : Tree :=
  .node { tag := "class", name := some "A" }
    [.node { tag := "method" } [.node { tag := "block" } [.node { tag := "if" } [], .node { tag := "if" } []]]]

/-- Behind the body of the method there is room for something that is no block. -/
theorem kept_addresses_condition :
    ∃ n' : (insert (⟨[0], rfl⟩ : twoConditions.Node) 1 (.node { tag := "return" } [])).Node, n'.route = [0, 0, 1] ∧
      path ⟨.default, .compact⟩ n' none = "/A/method[1]/if[2]" := by
  have hn : ¬ MovesAt (⟨[0], rfl⟩ : twoConditions.Node) 1 ⟨[0, 0, 1], rfl⟩ := by
    rw [movesAt_iff]
    rintro ⟨j, r, hj, hr⟩
    cases hr
    omega
  obtain ⟨n', hroute, hnames, -⟩ := kept_addresses ⟨.default, .compact⟩ ⟨[0], rfl⟩ (by decide)
    (.node { tag := "return" } []) hn
  obtain ⟨b', hb', -, hpath⟩ := hnames none nofun
  obtain rfl : b' = none := Option.map_eq_none_iff.mp hb'
  exact ⟨n', hroute, (hpath (by decide)).trans (by decide)⟩

/-- A second block makes the first one visible. -/
example : path ⟨.default, .compact⟩
    (⟨[0, 0, 1], rfl⟩ : (insert (⟨[0], rfl⟩ : twoConditions.Node) 1 (.node { tag := "block" } [])).Node) none =
      "/A/method[1]/block[1]/if[2]" := by decide

end Naming

end TreeQuery
