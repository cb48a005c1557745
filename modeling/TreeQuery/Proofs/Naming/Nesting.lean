import Mathlib.Data.List.TakeWhile
import TreeQuery.Naming
import TreeQuery.Proofs.Tree.Ascent

/-!
# Nesting within a declaration

A declaration ends what encloses a node: `a` encloses `n` within its declaration if no node from the parent of `n` up to
and including `a` is a declaration. A statement is nested if a statement encloses it so. Going up from one enclosing
statement to the next must come to an end, so each statement has an outermost one around it, and this one is not nested.
The depth of a node counts on the same way up, but also stops below the top and at a boundary.

* `Within`, `Within.trans`, `Within.above`: enclosing within a declaration;
* `isNested_iff`, `exists_outermost`, `Within.below_of_outermost`, `exists_declaration_between`: nested statements;
* `surrounding`, `depth_eq`, `within_of_mem_surrounding`: the nodes whose kinds the depth of a node depends on;
* `surrounding_eq`, `depth_none_eq`, `depth_le`, `depth_eq_of_forall_notMem`: depths in two parts, and below boundaries;
* `depth_additive`: depths add up at a node in between, and a boundary only ever takes something away.
-/

namespace TreeQuery.Naming

set_option autoImplicit false

open Tree.Node

variable {g : Naming} {t : Tree} {a b m n r : t.Node} {c : Option t.Node}

/-! ## Enclosing nodes -/

/-- `a` is `n`, or it encloses `n` and none of the nodes from the parent of `n` up to and including `a` is a
declaration. -/
def Within (g : Naming) (a n : t.Node) : Prop :=
  Relation.ReflTransGen IsParentOf a n ∧ ∀ d, Relation.ReflTransGen IsParentOf a d →
    Relation.TransGen IsParentOf d n → g.vocabulary.isDeclaration d.tag = false

theorem Within.refl (g : Naming) (n : t.Node) : g.Within n n :=
  ⟨.refl, fun _ hnd hdn => absurd hnd (not_below_of_strictlyAbove hdn)⟩

theorem Within.trans (hab : g.Within a b) (hbn : g.Within b n) : g.Within a n := by
  refine ⟨hab.1.trans hbn.1, fun d had hdn => ?_⟩
  -- A node on the way from `a` to `n` is above `b`, is `b`, or is below it.
  rcases below_or_strictlyAbove hdn.to_reflTransGen hbn.1 with hdb | hbd
  · rcases eq_or_strictlyBelow hdb with rfl | hdb
    · exact hbn.2 d .refl hdn
    · exact hab.2 d had hdb
  · exact hbn.2 d hbd.to_reflTransGen hdn

/-- What encloses a node within its declaration encloses also the nodes in between so. -/
theorem Within.above (han : g.Within a n) (ham : Relation.ReflTransGen IsParentOf a m)
    (hmn : Relation.ReflTransGen IsParentOf m n) : g.Within a m :=
  ⟨ham, fun d had hdm => han.2 d had (hdm.trans_left hmn)⟩

/-! ## Nested statements -/

theorem isNested_iff : g.isNested n = true ↔
    ∃ a, Relation.TransGen IsParentOf a n ∧ g.Within a n ∧ g.vocabulary.isStatement a.tag = true := by
  unfold isNested
  rw [List.any_eq_true]
  refine exists_congr fun a => ?_
  rw [mem_takeWhile_ancestors, ← and_assoc]
  refine and_congr_left fun _ => and_congr_right fun han => ?_
  simp only [Within, han.to_reflTransGen, true_and, Bool.not_eq_true']

/-- Around every statement there is one that is not nested, in the same declaration. -/
theorem exists_outermost (hb : g.vocabulary.isStatement b.tag = true) :
    ∃ r, g.Within r b ∧ g.vocabulary.isStatement r.tag = true ∧ g.isNested r = false := by
  induction b using induction_above with
  | above b ih =>
      cases hnested : g.isNested b with
      | false => exact ⟨b, .refl g b, hb, hnested⟩
      | true =>
          -- The outermost statement around an enclosing one is the outermost around `b`.
          obtain ⟨a, hab, hwithin, ha⟩ := isNested_iff.mp hnested
          obtain ⟨r, hra, hr⟩ := ih a hab ha
          exact ⟨r, hra.trans hwithin, hr⟩

theorem not_within_of_outermost (hnested : g.isNested n = false) (han : Relation.TransGen IsParentOf a n)
    (ha : g.vocabulary.isStatement a.tag = true) : ¬ g.Within a n := by
  intro hwithin
  rw [isNested_iff.mpr ⟨a, han, hwithin, ha⟩] at hnested
  cases hnested

/-- All statements that enclose a node within its declaration lie at or below one of them that is not nested. -/
theorem Within.below_of_outermost (hr : g.Within r b) (hnested : g.isNested r = false) (hm : g.Within m b)
    (hstatement : g.vocabulary.isStatement m.tag = true) : Relation.ReflTransGen IsParentOf r m := by
  refine (below_or_strictlyAbove hr.1 hm.1).resolve_right fun hmr => ?_
  exact not_within_of_outermost hnested hmr hstatement (hm.above hmr.to_reflTransGen hr.1)

/-- A statement that is not nested lies below another statement only across a declaration. -/
theorem exists_declaration_between (hab : Relation.TransGen IsParentOf a b)
    (ha : g.vocabulary.isStatement a.tag = true) (hnested : g.isNested b = false) :
    ∃ d, Relation.ReflTransGen IsParentOf a d ∧ Relation.TransGen IsParentOf d b ∧
      g.vocabulary.isDeclaration d.tag = true := by
  by_contra hnone
  refine not_within_of_outermost hnested hab ha ⟨hab.to_reflTransGen, fun d had hdb => ?_⟩
  exact Bool.eq_false_iff.mpr fun hd => hnone ⟨d, had, hdb, hd⟩

/-! ## Depth -/

/-- The nodes above `n` that are below both the top and the enclosing declaration. -/
def surrounding (g : Naming) (n : t.Node) : List t.Node :=
  n.ancestors.takeWhile fun m => !m.route.isEmpty && !g.vocabulary.isDeclaration m.tag

/-- The node is a statement or a block. -/
def counts (g : Naming) (n : t.Node) : Bool := g.vocabulary.isStatement n.tag || g.vocabulary.isBlock n.tag

theorem depth_eq (n : t.Node) (c : Option t.Node) :
    g.depth n c = ((g.surrounding n).takeWhile (some · != c)).countP g.counts := by
  rw [depth, surrounding, List.takeWhile_takeWhile, List.countP_eq_length_filter]
  simp only [Bool.decide_and, Bool.decide_eq_true, Bool.and_assoc]
  rfl

theorem within_of_mem_surrounding (h : a ∈ g.surrounding n) : Relation.TransGen IsParentOf a n ∧ g.Within a n := by
  obtain ⟨han, hall⟩ := mem_takeWhile_ancestors.mp h
  refine ⟨han, han.to_reflTransGen, fun d had hdn => ?_⟩
  have hd := hall d had hdn
  simp only [Bool.and_eq_true, Bool.not_eq_true'] at hd
  exact hd.2

theorem surrounding_eq (hbn : Relation.TransGen IsParentOf b n) (htop : b ≠ .top t) (hwithin : g.Within b n) :
    g.surrounding n = n.ancestors.takeWhile (· != b) ++ b :: g.surrounding b := by
  refine takeWhile_ancestors_eq hbn fun d hbd hdn => ?_
  have hroute : d.route.isEmpty = false := by
    refine Bool.eq_false_iff.mpr fun hempty => ?_
    obtain rfl : d = .top t := ext_route (List.isEmpty_iff.mp hempty)
    exact (eq_or_strictlyBelow hbd).elim htop not_strictlyBelow_top
  rw [hroute, hwithin.2 d hbd hdn]
  rfl

/-- A boundary that is not among the surrounding nodes cuts none of them off. -/
theorem depth_eq_of_forall_notMem (h : ∀ b ∈ c, b ∉ g.surrounding n) :
    g.depth n c = (g.surrounding n).countP g.counts := by
  rw [depth_eq, List.takeWhile_eq_self_iff.mpr fun m hm => ?_]
  exact bne_iff_ne.mpr fun hmc => h m hmc.symm hm

theorem depth_le (n : t.Node) (c : Option t.Node) : g.depth n c ≤ g.depth n none := by
  rw [depth_eq_of_forall_notMem (c := none) nofun, depth_eq]
  exact (List.takeWhile_sublist _).countP_le

/-- Depths add up at a node in between. -/
theorem depth_none_eq (hbn : Relation.TransGen IsParentOf b n) (htop : b ≠ .top t) (hwithin : g.Within b n) :
    g.depth n none = g.depth n (some b) + (if g.counts b then 1 else 0) + g.depth b none := by
  have hbelow : (g.surrounding n).takeWhile (some · != some b) = n.ancestors.takeWhile (· != b) := by
    show (g.surrounding n).takeWhile (· != b) = _
    have hne : ∀ m ∈ n.ancestors.takeWhile (· != b), (m != b) = true :=
      fun m hm => List.mem_takeWhile_imp (p := (· != b)) hm
    rw [surrounding_eq hbn htop hwithin, List.takeWhile_append_of_pos hne, List.takeWhile_cons_of_neg (by simp),
      List.append_nil]
  rw [depth_eq_of_forall_notMem (n := n) (c := none) nofun, depth_eq_of_forall_notMem (n := b) (c := none) nofun,
    depth_eq n (some b), hbelow, surrounding_eq hbn htop hwithin, List.countP_append, List.countP_cons]
  omega

/-- **Let `b` lie above `n`, below the top, and let no node from the parent of `n` up to and including `b` be a
declaration: then the depth of `n` is its depth below `b`, and one for `b` if that is a statement or a block, and the
depth of `b`. The depth of a node below a boundary is at most its depth, and it is its depth if the boundary does not
lie above the node, or if it lies at or above a declaration that encloses the node.** -/
theorem depth_additive (g : Naming) (n : t.Node) :
    (∀ b, Relation.TransGen IsParentOf b n → b ≠ .top t →
      (∀ d, Relation.ReflTransGen IsParentOf b d → Relation.TransGen IsParentOf d n →
        g.vocabulary.isDeclaration d.tag = false) →
      g.depth n none = g.depth n (some b) +
        (if g.vocabulary.isStatement b.tag || g.vocabulary.isBlock b.tag then 1 else 0) + g.depth b none) ∧
    ∀ boundary : Option t.Node, g.depth n boundary ≤ g.depth n none ∧
      ((∀ b ∈ boundary, ¬ Relation.TransGen IsParentOf b n ∨
          ∃ d, Relation.TransGen IsParentOf d n ∧ g.vocabulary.isDeclaration d.tag = true ∧
            Relation.ReflTransGen IsParentOf b d) →
        g.depth n boundary = g.depth n none) := by
  refine ⟨fun b hbn htop hnone => depth_none_eq hbn htop ⟨hbn.to_reflTransGen, hnone⟩, fun boundary => ?_⟩
  refine ⟨depth_le n boundary, fun hboundary => ?_⟩
  rw [depth_eq_of_forall_notMem (c := none) nofun]
  refine depth_eq_of_forall_notMem fun b hb hmem => ?_
  obtain ⟨hbn, hwithin⟩ := within_of_mem_surrounding hmem
  rcases hboundary b hb with hnot | ⟨d, hdn, hd, hbd⟩
  · exact hnot hbn
  · rw [hwithin.2 d hbd hdn] at hd
    cases hd

/-- A method with a loop, and in its body a condition. -/
def conditionInLoop : Tree :=
  .node { tag := "class" } [.node { tag := "method" } [.node { tag := "block" }
    [.node { tag := "while" } [.node { tag := "block" } [.node { tag := "if" } []]]]]]

/-- The body of the loop, the loop and the body of the method; the class lies above the method. -/
theorem depth_additive_condition :
    depth ⟨.default, .compact⟩ (⟨[0, 0, 0, 0, 0], rfl⟩ : conditionInLoop.Node) none = 1 + 1 + 1 ∧
      depth ⟨.default, .compact⟩ (⟨[0, 0, 0, 0, 0], rfl⟩ : conditionInLoop.Node) (some (.top _)) =
        depth ⟨.default, .compact⟩ (⟨[0, 0, 0, 0, 0], rfl⟩ : conditionInLoop.Node) none := by
  obtain ⟨hadd, hboundary⟩ := depth_additive ⟨.default, .compact⟩ (⟨[0, 0, 0, 0, 0], rfl⟩ : conditionInLoop.Node)
  have hnone : ∀ d ∈ ancestors (⟨[0, 0, 0, 0, 0], rfl⟩ : conditionInLoop.Node), ⟨[0, 0, 0], rfl⟩ ∈ d :: d.ancestors →
      Vocabulary.isDeclaration .default d.tag = false := by decide +kernel
  constructor
  · refine (hadd ⟨[0, 0, 0], rfl⟩ (mem_ancestors.mp (by decide)) (by decide) fun d hbd hdn => ?_).trans
      (by decide +kernel)
    refine hnone d (mem_ancestors.mpr hdn) ?_
    rw [List.mem_cons, mem_ancestors]
    exact eq_or_strictlyBelow hbd
  · refine (hboundary (some (.top _))).2 fun b hb => .inr ⟨⟨[0], rfl⟩, mem_ancestors.mp (by decide), by decide, ?_⟩
    obtain rfl := Option.some.inj hb
    exact (mem_ancestors.mp (by decide)).to_reflTransGen

end TreeQuery.Naming
