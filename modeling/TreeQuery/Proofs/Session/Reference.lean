import TreeQuery.Proofs.Session.Run
import TreeQuery.Proofs.Tree.Reference

/-!
# References and resolution as inverses

A reference is made by collecting the child indices on the way from the root of a snapshot down to a node, and resolved
by following them again. The indices between two nodes are unique, and so is the node at their end; so the two ways are
inverse to each other, in every snapshot and also for references that no snapshot has made.

* `Tree.Node.Descends`: child indices lead from one node to another;
* `Snapshot.Inside`: a place at or below the root of a snapshot;
* `refer_eq_ok_iff_descends`, `refer_of_inside`, `refer_of_not_inside`: to which places there are references;
* `resolve?_eq_some_iff`: what a reference resolves to;
* `InverseReferences`, `references_inverse`: making references and resolving them.
-/

namespace TreeQuery

set_option autoImplicit false

open Tree.Node

/-! ## Child indices -/

namespace Tree.Node

variable {t : Tree} {a b : t.Node} {is : List Nat}

/-- Child indices lead from one node down to another. -/
inductive Descends : t.Node → List Nat → t.Node → Prop where
  | nil (a : t.Node) : Descends a [] a
  | cons {a b c : t.Node} {i : Nat} {is : List Nat} : a.ChildAt i b → Descends b is c → Descends a (i :: is) c

theorem Descends.route_eq (h : Descends a is b) : b.route = a.route ++ is := by
  induction h with
  | nil a => exact (List.append_nil a.route).symm
  | cons hchild _ ih => rw [ih, hchild, List.append_assoc, List.singleton_append]

theorem descends_of_route_eq (h : b.route = a.route ++ is) : Descends a is b := by
  induction is generalizing a with
  | nil =>
      obtain rfl : b = a := ext_route (h.trans (List.append_nil a.route))
      exact .nil b
  | cons i is ih =>
      rw [List.append_cons] at h
      have hinside : (t.sub? (a.route ++ [i])).isSome := isSome_sub?_of_append (h ▸ b.inside)
      have hchild : a.ChildAt i ⟨a.route ++ [i], hinside⟩ := rfl
      exact .cons hchild (ih h)

theorem descends_iff : Descends a is b ↔ b.route = a.route ++ is := ⟨Descends.route_eq, descends_of_route_eq⟩

theorem below_iff_descends : Relation.ReflTransGen IsParentOf a b ↔ ∃ is, Descends a is b := by
  rw [below_iff]
  exact exists_congr fun is => descends_iff.symm

end Tree.Node

/-! ## Places inside a snapshot -/

/-- The place is the root of the snapshot or below it. -/
def Snapshot.Inside (s : Snapshot) (p : Place) : Prop :=
  ∃ n, p = ⟨s.document, n⟩ ∧ Relation.ReflTransGen IsParentOf s.root n

theorem Snapshot.inside_iff {s : Snapshot} {p : Place} : s.Inside p ↔ s.contains p = true := by
  rw [contains_iff]
  refine exists_congr fun n => ?_
  rw [below_iff, exists_and_left]

theorem Snapshot.resolve?_eq_some_iff {s : Snapshot} {r : Reference} {n : s.document.tree.Node} :
    s.resolve? r = some n ↔ Descends s.root r.route n ∧ n.tag = r.tag ∧ ∀ name ∈ r.name, n.name = some name := by
  rw [resolve?_eq_some, descends_iff]

namespace Session

variable {s : Snapshot} {p q : Place} {r : Reference}

theorem refer_eq_ok : refer s p = .ok r ↔ s.refer? p = some r := by
  unfold refer
  cases s.refer? p with
  | none => exact ⟨nofun, nofun⟩
  | some target => rw [Except.ok.injEq, Option.some.injEq]

/-- A reference is made of the indices that lead to the node. -/
theorem refer_eq_ok_iff_descends : refer s p = .ok r ↔ ∃ n route, p = ⟨s.document, n⟩ ∧ Descends s.root route n ∧
    r = ⟨s.id, route, n.tag, n.name⟩ := by
  simp only [descends_iff, refer_eq_ok, Snapshot.refer?_eq_some]

theorem refer_of_inside (h : s.Inside p) : ∃ r, refer s p = .ok r := by
  obtain ⟨n, rfl, hbelow⟩ := h
  obtain ⟨route, hroute⟩ := below_iff_descends.mp hbelow
  exact ⟨_, refer_eq_ok_iff_descends.mpr ⟨n, route, rfl, hroute, rfl⟩⟩

theorem refer_of_not_inside (h : ¬ s.Inside p) : refer s p = .error (.outside (describe p.node) s.id) := by
  rw [Snapshot.inside_iff, Bool.not_eq_true] at h
  exact refer_of_none (if_neg (by rw [h]; exact Bool.false_ne_true))

/-- In a snapshot, references are made and resolved faithfully. -/
structure InverseReferences (s : Snapshot) : Prop where
  made : ∀ p, s.Inside p → ∃ r, refer s p = .ok r
  refused : ∀ p, ¬ s.Inside p → refer s p = .error (.outside (describe p.node) s.id)
  /-- A reference holds the child indices from the root to the node, and what the node was. -/
  recorded : ∀ n r, refer s ⟨s.document, n⟩ = .ok r →
    Descends s.root r.route n ∧ r.snapshot = s.id ∧ r.tag = n.tag ∧ r.name = n.name
  resolved : ∀ n r, refer s ⟨s.document, n⟩ = .ok r → s.resolve? r = some n
  /-- A reference of any origin that resolves to a node is the one that is made to it, but for a name that it may
  have left out and for the snapshot that made it. -/
  recovered : ∀ r n, s.resolve? r = some n → ∃ r', refer s ⟨s.document, n⟩ = .ok r' ∧
    r'.route = r.route ∧ r'.tag = r.tag ∧ ∀ name ∈ r.name, r'.name = some name
  injective : ∀ p q r, refer s p = .ok r → refer s q = .ok r → p = q

/-- **In every snapshot, from the top of a tree or from any other node, there are references to exactly the nodes at
and below the root, and to any other place making one is an error. A reference resolves to the node to which it was
made; whatever resolves to a node has the indices, the tag and, if one is recorded, the name of the reference that is
made to it; and no two nodes have equal references.** -/
theorem references_inverse (s : Snapshot) : InverseReferences s := by
  have hresolved : ∀ n r, refer s ⟨s.document, n⟩ = .ok r → s.resolve? r = some n :=
    fun n r h => Snapshot.resolve?_self (refer_eq_ok.mp h)
  refine ⟨fun p => refer_of_inside, fun p => refer_of_not_inside, fun n r h => ?_, hresolved, fun r n h => ?_,
    fun p q r hp hq => ?_⟩
  · obtain ⟨n, route, hn, hroute, rfl⟩ := refer_eq_ok_iff_descends.mp h
    cases hn
    exact ⟨hroute, rfl, rfl, rfl⟩
  · obtain ⟨hroute, htag, hname⟩ := Snapshot.resolve?_eq_some_iff.mp h
    exact ⟨_, refer_eq_ok_iff_descends.mpr ⟨n, r.route, rfl, hroute, rfl⟩, rfl, htag, hname⟩
  · obtain ⟨n, -, rfl, -, -⟩ := refer_eq_ok_iff_descends.mp hp
    obtain ⟨n', -, rfl, -, -⟩ := refer_eq_ok_iff_descends.mp hq
    rw [Option.some.inj ((hresolved n r hp).symm.trans (hresolved n' r hq))]

end Session

end TreeQuery
