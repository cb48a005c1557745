import Mathlib.Data.List.Dedup
import Mathlib.Data.List.Perm.Subperm
import TreeQuery.Proofs.Select.Meaning

/-!
# What a selection can hold

Positions and `or` break every statement about single nodes and about order, but not this one: whatever a predicate is
made of, it takes no candidate more often than it is offered. A step offers each node once, so a path selects no node
twice; and it selects nothing that its axes and tests alone would not lead to.

* `Position.pick_sublist`, `subperm_appendUnique`, `nodup_distinct`: the operations on lists;
* `Semantics.apply_subperm`, `Semantics.filters_subperm`: what one predicate and what several keep;
* `Step.bare`, `Semantics.steps_reach`: steps without their predicates lead to all that the steps select;
* `Semantics.evaluate_distinct`: no node is selected twice, and none that is not reached.
-/

namespace TreeQuery

set_option autoImplicit false

/-! ## Operations on lists -/

section Lists

variable {α : Type} {xs ys zs : List α}

/-- A position picks one candidate at most. -/
theorem Position.pick_sublist (p : Position) (xs : List α) : (p.pick xs).Sublist xs := by
  have hpicked : ∀ o : Option α, (∀ x ∈ o, x ∈ xs) → o.toList.Sublist xs := by
    intro o ho
    cases o with
    | none => exact List.nil_sublist xs
    | some x => exact List.singleton_sublist.mpr (ho x rfl)
  unfold pick
  split
  · exact hpicked _ fun x hx => List.mem_reverse.mp (List.mem_of_getElem? hx)
  · split
    · exact List.nil_sublist xs
    · exact hpicked _ fun x hx => List.mem_of_getElem? hx

theorem nodup_of_subperm (h : xs.Subperm ys) (hys : ys.Nodup) : xs.Nodup := by
  obtain ⟨ks, hperm, hsub⟩ := h
  exact hperm.nodup_iff.mp (hys.sublist hsub)

/-- What is put after a list is not yet in it, so that nothing is taken more often than it is there. -/
theorem subperm_appendUnique [DecidableEq α] (hxs : xs.Subperm zs) (hys : ys ⊆ zs) :
    (appendUnique xs ys).Subperm zs := by
  induction ys generalizing xs with
  | nil => exact hxs
  | cons y ys ih =>
      obtain ⟨hy, hys⟩ := List.cons_subset.mp hys
      rw [appendUnique]
      by_cases hmem : y ∈ xs
      · rw [if_pos hmem]
        exact ih hxs hys
      · rw [if_neg hmem]
        have hcons : (y :: xs).Subperm zs := List.cons_subperm_of_not_mem_of_mem hmem hy hxs
        exact ih ((List.perm_append_singleton y xs).subperm_right.mpr hcons) hys

theorem nodup_distinct [DecidableEq α] (xs : List α) : (distinct xs).Nodup :=
  nodup_of_subperm (subperm_appendUnique List.nil_subperm (List.subset_dedup xs)) (List.nodup_dedup xs)

theorem keepIf_sublist {ε : Type} {test : α → Except ε Bool} (h : keepIf test xs = .ok ys) : ys.Sublist xs := by
  rw [(keepIf_eq_ok.mp h).2]
  exact List.filter_sublist

end Lists

namespace Semantics

variable [Regex.Library] {t : Tree} {m : Semantics t}

/-! ## Predicates -/

/-- Of no candidate does a predicate keep more than it is given. -/
theorem apply_subperm {p : Predicate} {ns ms : List t.Node} (h : m.apply p ns = .ok ms) : ms.Subperm ns := by
  induction p generalizing ns ms with
  | name pattern => exact (keepIf_sublist h).subperm
  | flag word => exact (keepIf_sublist h).subperm
  | attr a => exact (keepIf_sublist h).subperm
  | position p =>
      obtain rfl := Except.ok.inj h
      exact (p.pick_sublist ns).subperm
  | not p ih =>
      obtain ⟨ks, -, hms⟩ := bind_eq_ok.mp h
      obtain rfl := Except.ok.inj hms
      exact List.filter_sublist.subperm
  | and p q ihp ihq =>
      obtain ⟨ks, hks, hms⟩ := bind_eq_ok.mp h
      exact (ihq hms).trans (ihp hks)
  | or p q ihp ihq =>
      obtain ⟨ks, hks, h⟩ := bind_eq_ok.mp h
      obtain ⟨ls, hls, hms⟩ := bind_eq_ok.mp h
      obtain rfl := Except.ok.inj hms
      -- How often the right side keeps a candidate does not matter: it is added only where the left side has none.
      exact subperm_appendUnique (ihp hks) (ihq hls).subset

theorem filters_subperm {ps : List Predicate} {ns ms : List t.Node}
    (h : ps.foldlM (fun ms p => m.apply p ms) ns = .ok ms) : ms.Subperm ns := by
  induction ps generalizing ns with
  | nil =>
      obtain rfl := Except.ok.inj h
      exact .refl _
  | cons p ps ih =>
      rw [List.foldlM_cons, bind_eq_ok] at h
      obtain ⟨ks, hks, hms⟩ := h
      exact (ih hms).trans (apply_subperm hks)

end Semantics

/-! ## Steps and paths -/

/-- The step without its predicates. -/
def Step.bare (s : Step) : Step := { s with predicates := [] }

namespace Semantics

variable [Regex.Library] {t : Tree} {m : Semantics t}

theorem step_reaches {s : Step} {ns ms : List t.Node} (h : m.step ns s = .ok ms) :
    ms.Nodup ∧ ∀ b ∈ ms, ∃ a ∈ ns, m.Link s.bare a b := by
  have hsubperm := filters_subperm h
  refine ⟨nodup_of_subperm hsubperm (nodup_distinct _), fun b hb => ?_⟩
  obtain ⟨a, ha, hab⟩ := List.mem_flatMap.mp (mem_distinct.mp (hsubperm.subset hb))
  obtain ⟨haxis, htest⟩ := (s.mem_expand a b).mp hab
  exact ⟨a, ha, haxis, htest, nofun⟩

/-- Steps do not repeat nodes, and lead nowhere that their axes and tests alone do not lead. -/
theorem steps_reach {ss : List Step} {ns ms : List t.Node} (hns : ns.Nodup) (h : ss.foldlM m.step ns = .ok ms) :
    ms.Nodup ∧ ∀ b ∈ ms, ∃ a ∈ ns, m.Chain (ss.map Step.bare) a b := by
  induction ss generalizing ns with
  | nil =>
      obtain rfl := Except.ok.inj h
      exact ⟨hns, fun b hb => ⟨b, hb, .nil b⟩⟩
  | cons s ss ih =>
      rw [List.foldlM_cons, bind_eq_ok] at h
      obtain ⟨ks, hks, hms⟩ := h
      obtain ⟨hnodup, hlink⟩ := step_reaches hks
      obtain ⟨hms, hchain⟩ := ih hnodup hms
      refine ⟨hms, fun c hc => ?_⟩
      obtain ⟨b, hb, hbc⟩ := hchain c hc
      obtain ⟨a, ha, hab⟩ := hlink b hb
      exact ⟨a, ha, .cons hab hbc⟩

theorem evaluate_reaches {p : Path} {context : t.Node} {ns : List t.Node} (h : m.evaluate p context = .ok ns) :
    ns.Nodup ∧ ∀ n ∈ ns, m.Chain (p.steps.map Step.bare) (if p.absolute then .top t else context) n := by
  obtain ⟨hnodup, hchain⟩ := steps_reach (List.nodup_singleton _) h
  refine ⟨hnodup, fun n hn => ?_⟩
  obtain ⟨a, ha, han⟩ := hchain n hn
  rwa [← List.mem_singleton.mp ha]

/-- **Whatever predicates a path has, if it can be evaluated, then no node is selected twice, and each is a node of the
context's tree, to which the axes and tests of the steps lead. This rests on what a predicate keeps: of candidates that
are listed once, a part that is listed once.** -/
theorem evaluate_distinct (m : Semantics t) :
    (∀ (p : Path) (context : t.Node) (ns : List t.Node), m.evaluate p context = .ok ns →
      ns.Nodup ∧ ∀ n ∈ ns, n ∈ Tree.Node.all t ∧
        m.Chain (p.steps.map Step.bare) (if p.absolute then .top t else context) n) ∧
    ∀ (q : Predicate) (candidates kept : List t.Node), candidates.Nodup → m.apply q candidates = .ok kept →
      kept.Nodup ∧ kept ⊆ candidates := by
  constructor
  · intro p context ns h
    obtain ⟨hnodup, hchain⟩ := evaluate_reaches h
    exact ⟨hnodup, fun n hn => ⟨n.mem_all, hchain n hn⟩⟩
  · intro q candidates kept hcandidates h
    have hsubperm := apply_subperm h
    exact ⟨nodup_of_subperm hsubperm hcandidates, hsubperm.subset⟩

end Semantics

end TreeQuery
