import TreeQuery.Proofs.Select.Agreement
import TreeQuery.Proofs.Select.FirstSeen
import TreeQuery.Proofs.Tree.Order

/-!
# Selections in document order

Evaluation sorts nothing. What a step finds is in document order as long as the parts of the union come in order:
either no two nodes that the step starts from lie above each other, and then all below the first comes before all below
the second; or the step goes all the way down, and then what lies below the lower one has come with the upper one.
Steps to children keep their nodes on one level, so the first holds of them until a step goes deeper; from there on
only the second is left, and a step to children may break the order.

* `Axis.IsShallow`, `Axis.IsDeep`, `Path.IsDownward`: the axes that lead down, and the paths that go deep last;
* `Axis.before_of_level`, `Axis.relates_or_before`: how the parts of a union come;
* `Semantics.steps_keep`: what each step keeps, a run of steps keeps;
* `Semantics.InRow`, `Semantics.step_inRow`, `Semantics.step_deep`: what a shallow and what a deep step keeps;
* `Semantics.evaluate_increasing`: downward paths select in document order.
-/

namespace TreeQuery

set_option autoImplicit false

open Tree.Node

/-! ## Axes that lead down -/

/-- The axis ends on the level of its start, or one below it. -/
def Axis.IsShallow (axis : Axis) : Prop := axis = child ∨ axis = self
deriving Decidable

/-- The axis takes in everything below, or stays where it is. -/
def Axis.IsDeep (axis : Axis) : Prop := axis = descendant ∨ axis = descendantOrSelf ∨ axis = self
deriving Decidable

/-- Shallow steps come first, and after them deep ones. -/
def Path.IsDownward (p : Path) : Prop :=
  ∃ shallow deep, p.steps = shallow ++ deep ∧ (∀ s ∈ shallow, s.axis.IsShallow) ∧ ∀ s ∈ deep, s.axis.IsDeep

namespace Axis

variable {t : Tree} {a b c d : t.Node} {axis : Axis}

theorem below_of_relates (haxis : axis.IsShallow ∨ axis.IsDeep) (h : axis.Relates a b) :
    Relation.ReflTransGen IsParentOf a b := by
  rcases haxis with (rfl | rfl) | rfl | rfl | rfl
  · exact .single h
  · exact Relation.reflTransGen_iff_eq_or_transGen.mpr (.inl h.symm)
  · exact h.to_reflTransGen
  · exact h
  · exact Relation.reflTransGen_iff_eq_or_transGen.mpr (.inl h.symm)

theorem nodes_increasing (haxis : axis.IsShallow ∨ axis.IsDeep) (n : t.Node) : (axis.nodes n).Pairwise Before := by
  rcases haxis with (rfl | rfl) | rfl | rfl | rfl
  · exact children_increasing n
  · exact List.pairwise_singleton _ n
  · exact descendants_increasing n
  · exact List.pairwise_cons.mpr ⟨fun d hd => .inl (mem_descendants.mp hd), descendants_increasing n⟩
  · exact List.pairwise_singleton _ n

/-- Nodes on one level do not lie above each other, so what is below them comes in their order. -/
theorem before_of_level (haxis : axis.IsShallow) (hab : a.Before b) (hlevel : a.route.length = b.route.length)
    (hc : axis.Relates a c) (hd : axis.Relates b d) : c.Before d := by
  refine hab.below (fun h => ?_) (below_of_relates (.inl haxis) hc) (below_of_relates (.inl haxis) hd)
  obtain ⟨r, hr⟩ := below_iff.mp h
  have hlength : r.length = 0 := by
    have := congrArg List.length hr
    rw [List.length_append] at this
    omega
  rw [List.length_eq_zero_iff.mp hlength, List.append_nil] at hr
  exact hab.ne (ext_route hr.symm)

/-- What a deep axis leads to from the second node, it leads to from the first as well, or it comes after all of
that. -/
theorem relates_or_before (haxis : axis.IsDeep) (hab : a.Before b) (hc : axis.Relates a c) (hd : axis.Relates b d) :
    axis.Relates a d ∨ c.Before d := by
  by_cases habove : Relation.ReflTransGen IsParentOf a b
  · rcases haxis with rfl | rfl | rfl
    · exact .inl (Relation.TransGen.trans_right habove hd)
    · exact .inl (Relation.ReflTransGen.trans habove hd)
    · obtain rfl : a = c := hc
      obtain rfl : b = d := hd
      exact .inr hab
  · exact .inr (hab.below habove (below_of_relates (.inr haxis) hc) (below_of_relates (.inr haxis) hd))

theorem level_of_relates (haxis : axis.IsShallow) :
    ∃ more, ∀ {a b : t.Node}, axis.Relates a b → b.route.length = a.route.length + more := by
  rcases haxis with rfl | rfl
  · refine ⟨1, fun {a b} h => ?_⟩
    obtain ⟨i, hi⟩ := h
    rw [hi, List.length_append, List.length_singleton]
  · refine ⟨0, fun {a b} h => ?_⟩
    obtain rfl : a = b := h
    rfl

end Axis

namespace Semantics

section Steps

variable [Regex.Library] {t : Tree} {m : Semantics t} {s : Step} {ss : List Step} {ns ms : List t.Node}

/-! ## Steps -/

/-- What each step keeps, a run of steps keeps. -/
theorem steps_keep {P : List t.Node → Prop} (hstep : ∀ s ∈ ss, ∀ ns ms, P ns → m.step ns s = .ok ms → P ms)
    (hns : P ns) (h : ss.foldlM m.step ns = .ok ms) : P ms := by
  induction ss generalizing ns with
  | nil =>
      obtain rfl := Except.ok.inj h
      exact hns
  | cons s ss ih =>
      obtain ⟨hs, hss⟩ := List.forall_mem_cons.mp hstep
      rw [List.foldlM_cons, bind_eq_ok] at h
      obtain ⟨ks, hks, hms⟩ := h
      exact ih hss (hs ns ks hns hks) hms

/-- A step down selects in document order if what it reaches from each node has come before or comes after what it
reaches from the nodes before. -/
theorem step_increasing (haxis : s.axis.IsShallow ∨ s.axis.IsDeep) (hor : ∀ p ∈ s.predicates, p.hasOr = false)
    (hns : ns.Pairwise fun a b => ∀ c d, s.axis.Relates a c → s.axis.Relates b d → s.axis.Relates a d ∨ c.Before d)
    (h : m.step ns s = .ok ms) : ms.Pairwise Before := by
  refine (pairwise_distinct_flatMap (fun a _ => ?_) (hns.imp fun {a b} hab => ?_)).sublist (filters_sublist hor h)
  · exact (s.axis.nodes_increasing haxis a).sublist List.filter_sublist
  · intro c hc d hd
    obtain ⟨hc, -⟩ := (s.mem_expand a c).mp hc
    obtain ⟨hd, htest⟩ := (s.mem_expand b d).mp hd
    rcases hab c d hc hd with hseen | hcd
    · exact .inl ((s.mem_expand a d).mpr ⟨hseen, htest⟩)
    · exact .inr hcd

/-- The nodes lie on one level, in document order. -/
structure InRow (ns : List t.Node) : Prop where
  increasing : ns.Pairwise Before
  level : ∃ depth, ∀ n ∈ ns, n.route.length = depth

omit [Regex.Library] in
theorem inRow_singleton (n : t.Node) : InRow [n] :=
  ⟨List.pairwise_singleton _ n, n.route.length, fun _ hk => by rw [List.mem_singleton.mp hk]⟩

theorem step_inRow (haxis : s.axis.IsShallow) (hor : ∀ p ∈ s.predicates, p.hasOr = false) (hns : InRow ns)
    (h : m.step ns s = .ok ms) : InRow ms := by
  obtain ⟨hincreasing, depth, hdepth⟩ := hns
  constructor
  · refine step_increasing (.inl haxis) hor ?_ h
    refine hincreasing.imp_of_mem fun {a b} ha hb hab c d hc hd => ?_
    exact .inr (Axis.before_of_level haxis hab ((hdepth a ha).trans (hdepth b hb).symm) hc hd)
  · obtain ⟨more, hmore⟩ := Axis.level_of_relates (t := t) haxis
    refine ⟨depth + more, fun b hb => ?_⟩
    obtain ⟨a, ha, hab⟩ := (step_reaches h).2 b hb
    rw [hmore hab.axis, hdepth a ha]

theorem step_deep (haxis : s.axis.IsDeep) (hor : ∀ p ∈ s.predicates, p.hasOr = false) (hns : ns.Pairwise Before)
    (h : m.step ns s = .ok ms) : ms.Pairwise Before :=
  step_increasing (.inr haxis) hor (hns.imp fun hab _ _ hc hd => Axis.relates_or_before haxis hab hc hd) h

/-! ## Paths -/

/-- **If the steps of a path are first shallow and then deep, and no predicate has an `or`, then what the path selects,
from whatever node, is in document order: each node comes before the next in the tree, and together they are a part of
the list of all nodes of the tree.** -/
theorem evaluate_increasing (m : Semantics t) (p : Path) (hp : p.IsDownward)
    (hor : ∀ s ∈ p.steps, ∀ q ∈ s.predicates, q.hasOr = false) (context : t.Node) (ns : List t.Node)
    (h : m.evaluate p context = .ok ns) : ns.Pairwise Before ∧ ns.Sublist (all t) := by
  obtain ⟨shallow, deep, hsteps, hshallow, hdeep⟩ := hp
  rw [evaluate, hsteps, List.foldlM_append, bind_eq_ok] at h
  rw [hsteps, List.forall_mem_append] at hor
  obtain ⟨ks, hks, hns⟩ := h
  have hrow : InRow ks :=
    steps_keep (fun s hs _ _ => step_inRow (hshallow s hs) (hor.1 s hs)) (inRow_singleton _) hks
  have hincreasing : ns.Pairwise Before :=
    steps_keep (fun s hs _ _ => step_deep (hdeep s hs) (hor.2 s hs)) hrow.increasing hns
  exact ⟨hincreasing, sublist_all hincreasing⟩

end Steps

/-- Calls in blocks, one of which lies in another. -/
def nestedBlocks : Tree :=
  .node { tag := "class" }
    [.node { tag := "block" } [.node { tag := "call" } [], .node { tag := "block" } [.node { tag := "call" } []]],
      .node { tag := "block" } [.node { tag := "call" } []]]

open scoped Regex.Engine

/-- All calls in blocks but the last of them. The inner block adds nothing to what the outer one has. -/
theorem evaluate_increasing_blocks :
    evaluate (t := nestedBlocks) ⟨.empty, none⟩
      ⟨[], false, [⟨.self, none, []⟩, ⟨.descendantOrSelf, some "block", []⟩,
        ⟨.descendant, some "call", [.not (.position ⟨true, 0⟩)]⟩]⟩ (.top _) =
      .ok [⟨[0, 0], rfl⟩, ⟨[0, 1, 0], rfl⟩] ∧
    List.Pairwise Before [(⟨[0, 0], rfl⟩ : nestedBlocks.Node), ⟨[0, 1, 0], rfl⟩] := by
  refine ⟨rfl, ?_⟩
  refine (evaluate_increasing (t := nestedBlocks) ⟨.empty, none⟩
    ⟨[], false, [⟨.self, none, []⟩, ⟨.descendantOrSelf, some "block", []⟩,
      ⟨.descendant, some "call", [.not (.position ⟨true, 0⟩)]⟩]⟩ ?_ (by decide) (.top _) _ rfl).1
  exact ⟨[⟨.self, none, []⟩], _, rfl, by decide, by decide⟩

/-- A shallow step after a deep one: the second block comes before what the first one holds. -/
example : ∃ ns, evaluate (t := nestedBlocks) ⟨.empty, none⟩
    ⟨[], false, [⟨.descendantOrSelf, none, []⟩, ⟨.child, none, []⟩]⟩ (.top _) = .ok ns ∧ ¬ ns.Pairwise Before :=
  ⟨_, rfl, by decide⟩

end Semantics

end TreeQuery
