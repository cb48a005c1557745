import TreeQuery.Proofs.Select.Failure
import TreeQuery.Proofs.Tree.Relation

/-!
# What a path means

The meaning of a path without positions as a relation between nodes: a path leads from one node to another along a
chain of nodes with one link per step, where a link follows the axis, and the node at its end passes the test and
the predicates. Evaluation works through lists of nodes instead, a step at a time, and selects exactly the ends of
such chains.

* `Axis.Relates`: each axis as a relation of the tree;
* `Step.Passes`, `Semantics.Link`, `Semantics.Chain`: the meaning;
* `Semantics.mem_step`, `Semantics.mem_steps`: what one step and what all steps select;
* `Semantics.evaluate_eq_chain`: evaluation selects what the path means, and succeeds where nothing fails.
-/

namespace TreeQuery

set_option autoImplicit false

open Tree.Node

/-! ## Meaning -/

/-- `b` lies on the axis of `a`. -/
def Axis.Relates {t : Tree} : Axis → t.Node → t.Node → Prop
  | child, a, b => IsParentOf a b
  | descendant, a, b => Relation.TransGen IsParentOf a b
  | parent, a, b => IsParentOf b a
  | ancestor, a, b => Relation.TransGen IsParentOf b a
  | ancestorOrSelf, a, b => Relation.ReflTransGen IsParentOf b a
  | followingSibling, a, b => IsSiblingBefore a b
  | precedingSibling, a, b => IsSiblingBefore b a
  | self, a, b => a = b
  | descendantOrSelf, a, b => Relation.ReflTransGen IsParentOf a b

/-- There is no test, or it is an asterisk, or it is the tag up to case. -/
def Step.Passes (s : Step) (tag : Text) : Prop :=
  ∀ w ∈ s.test, w = ("*" : Text) ∨ tag.lowered = w.lowered

namespace Semantics

variable [Regex.Library] {t : Tree} (m : Semantics t)

/-- One step leads from `a` to `b`. -/
structure Link (s : Step) (a b : t.Node) : Prop where
  axis : s.axis.Relates a b
  test : s.Passes b.tag
  predicates : ∀ p ∈ s.predicates, m.holds p b = .ok true

/-- Steps lead from one node to another, each from where the one before it led. -/
inductive Chain : List Step → t.Node → t.Node → Prop where
  | nil (a : t.Node) : Chain [] a a
  | cons {s : Step} {ss : List Step} {a b c : t.Node} : m.Link s a b → Chain ss b c → Chain (s :: ss) a c

end Semantics

/-! ## Evaluation -/

theorem Axis.mem_nodes {t : Tree} (axis : Axis) (a b : t.Node) : b ∈ axis.nodes a ↔ axis.Relates a b := by
  cases axis with
  | child => exact mem_children
  | descendant => exact mem_descendants
  | parent => exact Option.mem_toList.trans parent?_eq_some
  | ancestor => exact mem_ancestors
  | ancestorOrSelf =>
      rw [nodes, Relates, List.mem_cons, mem_ancestors, Relation.reflTransGen_iff_eq_or_transGen, eq_comm]
  | followingSibling => exact mem_laterSiblings
  | precedingSibling => exact mem_earlierSiblings
  | self => exact List.mem_singleton.trans eq_comm
  | descendantOrSelf =>
      rw [nodes, Relates, List.mem_cons, mem_descendants, Relation.reflTransGen_iff_eq_or_transGen]

theorem Step.admits_iff (s : Step) (tag : Text) : s.admits tag = true ↔ s.Passes tag := by
  unfold admits matchesAny Passes
  cases s.test with
  | none => simp
  | some w => simp [Text.sameFolded]

theorem Step.mem_expand {t : Tree} (s : Step) (a b : t.Node) :
    b ∈ s.expand a ↔ s.axis.Relates a b ∧ s.Passes b.tag := by
  rw [expand, List.mem_filter, s.axis.mem_nodes, s.admits_iff]

namespace Semantics

section Evaluation

variable [Regex.Library] {t : Tree} {m : Semantics t}

theorem mem_step {s : Step} (hs : ∀ p ∈ s.predicates, p.hasPosition = false) {ns ms : List t.Node}
    (h : m.step ns s = .ok ms) (b : t.Node) : b ∈ ms ↔ ∃ a ∈ ns, m.Link s a b := by
  rw [mem_filters hs h, mem_distinct, List.mem_flatMap]
  constructor
  · rintro ⟨⟨a, ha, hb⟩, hpredicates⟩
    obtain ⟨haxis, htest⟩ := (s.mem_expand a b).mp hb
    exact ⟨a, ha, haxis, htest, hpredicates⟩
  · rintro ⟨a, ha, haxis, htest, hpredicates⟩
    exact ⟨⟨a, ha, (s.mem_expand a b).mpr ⟨haxis, htest⟩⟩, hpredicates⟩

theorem mem_steps {ss : List Step} (hss : ∀ s ∈ ss, ∀ p ∈ s.predicates, p.hasPosition = false)
    {ns ms : List t.Node} (h : ss.foldlM m.step ns = .ok ms) (b : t.Node) : b ∈ ms ↔ ∃ a ∈ ns, m.Chain ss a b := by
  induction ss generalizing ns with
  | nil =>
      obtain rfl := Except.ok.inj h
      constructor
      · exact fun hb => ⟨b, hb, .nil b⟩
      · rintro ⟨a, ha, hab⟩
        cases hab
        exact ha
  | cons s ss ih =>
      obtain ⟨hs, hss⟩ := List.forall_mem_cons.mp hss
      rw [List.foldlM_cons, bind_eq_ok] at h
      obtain ⟨ks, hks, hms⟩ := h
      rw [ih hss hms]
      constructor
      · rintro ⟨c, hc, hcb⟩
        obtain ⟨a, ha, hac⟩ := (mem_step hs hks c).mp hc
        exact ⟨a, ha, .cons hac hcb⟩
      · rintro ⟨a, ha, hab⟩
        cases hab with
        | cons hac hcb => exact ⟨_, (mem_step hs hks _).mpr ⟨a, ha, hac⟩, hcb⟩

/-- **What a path without positions selects from a node are exactly the nodes to which its steps lead, for every library
and every provider with which it can be evaluated; and it can be, with a provider that fails on no node and as long as
no search is given up.** -/
theorem evaluate_eq_chain {p : Path} (hp : ∀ s ∈ p.steps, ∀ q ∈ s.predicates, q.hasPosition = false)
    (context : t.Node) :
    (∀ ns, m.evaluate p context = .ok ns →
      ∀ n, n ∈ ns ↔ m.Chain p.steps (if p.absolute then .top t else context) n) ∧
    (m.IsTotal p.expressions → ∃ ns, m.evaluate p context = .ok ns) := by
  refine ⟨fun ns hns n => ?_, fun hm => hm.steps _⟩
  rw [mem_steps hp hns]
  simp only [List.mem_singleton, exists_eq_left]

end Evaluation

open scoped Regex.Engine

/-- In a class with two methods, the second of them static, from the top to what follows a method that is not. -/
theorem chain_to_static :
    Chain (t := .node { tag := "class" }
        [.node { tag := "Method" } [], .node { tag := "Method", modifiers := ["static"] } []])
      ⟨.empty, some fun _ => .ok none⟩
      [⟨.descendant, some "method", [.not (.flag "static")]⟩, ⟨.followingSibling, none, []⟩] (.top _) ⟨[1], rfl⟩ := by
  obtain ⟨hchain, htotal⟩ := evaluate_eq_chain (t := .node { tag := "class" }
      [.node { tag := "Method" } [], .node { tag := "Method", modifiers := ["static"] } []])
    (m := ⟨.empty, some fun _ => .ok none⟩)
    (p := ⟨[], true, [⟨.descendant, some "method", [.not (.flag "static")]⟩, ⟨.followingSibling, none, []⟩]⟩)
    (by decide) (.top _)
  obtain ⟨ns, hns⟩ := htotal (isTotal_of_provider (by rintro ask ⟨⟩ n; exact ⟨none, rfl⟩) _)
  have hend : [⟨[1], rfl⟩] = ns := Except.ok.inj hns
  exact (hchain ns hns _).mp (hend ▸ List.mem_cons_self)

end Semantics

end TreeQuery
