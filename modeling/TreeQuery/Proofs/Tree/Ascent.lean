import TreeQuery.Proofs.Tree.Relation

/-!
# Going up from a node

The nodes at and above a node form a chain, since every node has one parent at most. So a walk up from a node that goes
on while a test holds passes exactly the nodes up to which the test holds throughout, and a walk that passes a node `b`
goes on as a walk from `b` does.

* `not_strictlyBelow_self`, `below_antisymm`, `below_or_strictlyAbove`: the chain of the nodes at and above a node;
* `ChildAt.strictlyBelow_iff`: above a child are the parent and what is above that;
* `mem_takeWhile_ancestors`: which nodes a walk passes;
* `takeWhile_ancestors_eq`: a walk in two parts;
* `induction_above`: induction from what lies above a node to the node.
-/

namespace TreeQuery.Tree.Node

set_option autoImplicit false

variable {t : Tree} {a b n p : t.Node}

/-! ## The chain above a node -/

theorem not_strictlyBelow_self (n : t.Node) : ¬ Relation.TransGen IsParentOf n n := by
  rw [strictlyBelow_iff]
  rintro ⟨r, hne, hr⟩
  exact hne (List.self_eq_append_right.mp hr)

theorem not_strictlyBelow_top : ¬ Relation.TransGen IsParentOf a (top t) := by
  rw [← mem_ancestors]
  exact List.not_mem_nil

theorem not_below_of_strictlyAbove (h : Relation.TransGen IsParentOf a b) : ¬ Relation.ReflTransGen IsParentOf b a :=
  fun hba => not_strictlyBelow_self a (h.trans_left hba)

theorem eq_or_strictlyBelow (h : Relation.ReflTransGen IsParentOf a b) : a = b ∨ Relation.TransGen IsParentOf a b :=
  (Relation.reflTransGen_iff_eq_or_transGen.mp h).imp_left Eq.symm

theorem below_antisymm (hab : Relation.ReflTransGen IsParentOf a b) (hba : Relation.ReflTransGen IsParentOf b a) :
    a = b :=
  (eq_or_strictlyBelow hab).resolve_right fun h => not_below_of_strictlyAbove h hba

/-- Of two nodes at or above a node, one lies at or above the other. -/
theorem below_or_strictlyAbove (ha : Relation.ReflTransGen IsParentOf a n) (hb : Relation.ReflTransGen IsParentOf b n) :
    Relation.ReflTransGen IsParentOf a b ∨ Relation.TransGen IsParentOf b a := by
  obtain ⟨r, hr⟩ := below_iff.mp ha
  obtain ⟨s, hs⟩ := below_iff.mp hb
  have hroutes : a.route <+: b.route ∨ b.route <+: a.route :=
    List.prefix_or_prefix_of_prefix ⟨r, hr.symm⟩ ⟨s, hs.symm⟩
  rcases hroutes with ⟨u, hu⟩ | ⟨u, hu⟩
  · exact .inl (below_iff.mpr ⟨u, hu.symm⟩)
  · rcases eq_or_strictlyBelow (below_iff.mpr ⟨u, hu.symm⟩) with rfl | h
    · exact .inl .refl
    · exact .inr h

theorem ChildAt.strictlyBelow_iff {i : Nat} (h : p.ChildAt i n) :
    Relation.TransGen IsParentOf a n ↔ Relation.ReflTransGen IsParentOf a p := by
  rw [Relation.TransGen.tail'_iff]
  constructor
  · rintro ⟨q, haq, j, hq⟩
    obtain ⟨rfl, -⟩ := h.unique hq
    exact haq
  · exact fun hap => ⟨p, hap, i, h⟩

/-- What holds of a node as soon as it holds of all nodes above it, holds of all nodes. -/
@[elab_as_elim]
theorem induction_above {motive : t.Node → Prop}
    (above : ∀ n, (∀ a, Relation.TransGen IsParentOf a n → motive a) → motive n) (n : t.Node) : motive n := by
  have hall : ∀ a, Relation.ReflTransGen IsParentOf a n → motive a := by
    induction n using induction_down with
    | top =>
        intro a ha
        exact above a fun b hb => absurd (hb.trans_left ha) not_strictlyBelow_top
    | child p i n hn ih =>
        intro a ha
        refine above a fun b hb => ih b ?_
        exact hn.strictlyBelow_iff.mp (hb.trans_left ha)
  exact hall n .refl

/-! ## Walks -/

/-- Going up while a test holds passes the nodes up to which the test holds throughout. -/
theorem mem_takeWhile_ancestors {f : t.Node → Bool} : a ∈ n.ancestors.takeWhile f ↔
    Relation.TransGen IsParentOf a n ∧
      ∀ d, Relation.ReflTransGen IsParentOf a d → Relation.TransGen IsParentOf d n → f d = true := by
  induction n using induction_down with
  | top => exact ⟨nofun, fun h => absurd h.1 not_strictlyBelow_top⟩
  | child p i n hn ih =>
      simp only [hn.strictlyBelow_iff]
      rw [hn.ancestors, List.takeWhile_cons]
      cases hp : f p with
      | false =>
          refine ⟨nofun, fun ⟨hap, hall⟩ => ?_⟩
          rw [hall p hap .refl] at hp
          cases hp
      | true =>
          rw [if_pos rfl, List.mem_cons, ih]
          constructor
          · rintro (rfl | ⟨hap, hall⟩)
            · refine ⟨.refl, fun d had hda => ?_⟩
              obtain rfl := below_antisymm had hda
              exact hp
            · refine ⟨hap.to_reflTransGen, fun d had hdp => ?_⟩
              rcases eq_or_strictlyBelow hdp with rfl | hlt
              · exact hp
              · exact hall d had hlt
          · rintro ⟨hap, hall⟩
            refine (eq_or_strictlyBelow hap).imp_right fun hlt => ⟨hlt, fun d had hdp => ?_⟩
            exact hall d had hdp.to_reflTransGen

/-- A walk that passes `b` passes the nodes below `b`, then `b`, and then what a walk from `b` passes. -/
theorem takeWhile_ancestors_eq {f : t.Node → Bool} (h : Relation.TransGen IsParentOf b n)
    (hf : ∀ d, Relation.ReflTransGen IsParentOf b d → Relation.TransGen IsParentOf d n → f d = true) :
    n.ancestors.takeWhile f = n.ancestors.takeWhile (· != b) ++ b :: b.ancestors.takeWhile f := by
  induction n using induction_down with
  | top => exact absurd h not_strictlyBelow_top
  | child p i n hn ih =>
      simp only [hn.strictlyBelow_iff] at h hf
      rw [hn.ancestors, List.takeWhile_cons_of_pos (hf p h .refl)]
      rcases eq_or_strictlyBelow h with rfl | hlt
      · rw [List.takeWhile_cons_of_neg (by simp), List.nil_append]
      · have hne : p ≠ b := fun hpb => not_strictlyBelow_self b (hpb ▸ hlt)
        rw [List.takeWhile_cons_of_pos (by simpa using hne), List.cons_append,
          ih hlt fun d hbd hdp => hf d hbd hdp.to_reflTransGen]

end TreeQuery.Tree.Node
