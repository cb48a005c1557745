import TreeQuery.Proofs.Select.Distinct

/-!
# Negated predicates

A predicate with positions or `or` cannot be judged candidate by candidate, and it may change their order; what `not`
makes of it is a law of lists all the same. The candidates fall into those that are kept and the rest, since a predicate
takes no candidate more often than it is there; and a second `not` puts back what was kept, now in the order of the
candidates.

* `filter_notMem_filter`, `filter_mem_perm`: the operations on lists;
* `Semantics.apply_not_eq_ok`, `Semantics.apply_not_not_eq_ok`: one and two negations, for all candidates;
* `Semantics.apply_not_complement`: what is kept and the rest make up the candidates.
-/

namespace TreeQuery

set_option autoImplicit false

/-! ## Operations on lists -/

section Lists

variable {α : Type} [DecidableEq α] {xs ys : List α}

theorem filter_notMem_filter (xs ys : List α) : xs.filter (· ∉ xs.filter (· ∉ ys)) = xs.filter (· ∈ ys) := by
  refine List.filter_congr fun x hx => ?_
  simp [hx]

/-- Of distinct members, those of a part of the list are that part in another order. -/
theorem filter_mem_perm (hys : ys.Subperm xs) (hxs : xs.Nodup) : (xs.filter (· ∈ ys)).Perm ys := by
  refine (List.perm_ext_iff_of_nodup (hxs.filter _) (nodup_of_subperm hys hxs)).mpr fun x => ?_
  have hmem : x ∈ ys → x ∈ xs := fun hx => hys.subset hx
  simpa using hmem

end Lists

/-! ## Predicates -/

namespace Semantics

section Predicates

variable [Regex.Library] {t : Tree} {m : Semantics t} {p : Predicate} {ns ms : List t.Node}

theorem apply_not_eq_ok :
    m.apply (.not p) ns = .ok ms ↔ ∃ kept, m.apply p ns = .ok kept ∧ ms = ns.filter (· ∉ kept) := by
  rw [apply, bind_eq_ok]
  refine exists_congr fun kept => and_congr_right fun _ => ?_
  rw [pure_eq_ok, Except.ok.injEq, eq_comm]

theorem apply_not_not_eq_ok :
    m.apply (.not (.not p)) ns = .ok ms ↔ ∃ kept, m.apply p ns = .ok kept ∧ ms = ns.filter (· ∈ kept) := by
  rw [apply_not_eq_ok]
  simp only [apply_not_eq_ok]
  constructor
  · rintro ⟨rest, ⟨kept, hkept, rfl⟩, rfl⟩
    exact ⟨kept, hkept, filter_notMem_filter ns kept⟩
  · rintro ⟨kept, hkept, rfl⟩
    exact ⟨_, ⟨kept, hkept, rfl⟩, (filter_notMem_filter ns kept).symm⟩

/-- **A negated predicate can be applied exactly if the predicate can, and it leaves of the candidates, in their order
and as often as they come, those that the predicate does not keep. If no candidate comes twice, then what the predicate
keeps and what its negation leaves are together the candidates in another order; and negated twice, the predicate keeps
what it keeps itself, in the order of the candidates.** -/
theorem apply_not_complement (m : Semantics t) (p : Predicate) (ns : List t.Node) :
    (∀ rest, m.apply (.not p) ns = .ok rest ↔ ∃ kept, m.apply p ns = .ok kept ∧ rest = ns.filter (· ∉ kept)) ∧
    ∀ kept, m.apply p ns = .ok kept → ns.Nodup →
      (∃ rest, m.apply (.not p) ns = .ok rest ∧ (kept ++ rest).Perm ns) ∧
      ∃ again, m.apply (.not (.not p)) ns = .ok again ∧ again.Perm kept ∧ again.Sublist ns := by
  refine ⟨fun rest => apply_not_eq_ok, fun kept hkept hns => ?_⟩
  have hperm : (ns.filter (· ∈ kept)).Perm kept := filter_mem_perm (apply_subperm hkept) hns
  have hsplit : (ns.filter (· ∈ kept) ++ ns.filter (· ∉ kept)).Perm ns := by
    simpa using List.filter_append_perm (fun n => decide (n ∈ kept)) ns
  constructor
  · refine ⟨ns.filter (· ∉ kept), apply_not_eq_ok.mpr ⟨kept, hkept, rfl⟩, ?_⟩
    exact (hperm.symm.append_right _).trans hsplit
  · exact ⟨ns.filter (· ∈ kept), apply_not_not_eq_ok.mpr ⟨kept, hkept, rfl⟩, hperm, List.filter_sublist⟩

end Predicates

/-- A block with three calls. -/
def threeCalls : Tree :=
  .node { tag := "block" } [.node { tag := "call" } [], .node { tag := "call" } [], .node { tag := "call" } []]

open scoped Regex.Engine

/-- The last call and then the first are kept, so that the second is left; negated twice, the first comes first. -/
theorem apply_not_complement_calls :
    apply (t := threeCalls) ⟨.empty, none⟩ (.or (.position ⟨true, 0⟩) (.position ⟨false, 1⟩))
      [⟨[0], rfl⟩, ⟨[1], rfl⟩, ⟨[2], rfl⟩] = .ok [⟨[2], rfl⟩, ⟨[0], rfl⟩] ∧
    apply (t := threeCalls) ⟨.empty, none⟩ (.not (.or (.position ⟨true, 0⟩) (.position ⟨false, 1⟩)))
      [⟨[0], rfl⟩, ⟨[1], rfl⟩, ⟨[2], rfl⟩] = .ok [⟨[1], rfl⟩] ∧
    ∃ again, apply (t := threeCalls) ⟨.empty, none⟩ (.not (.not (.or (.position ⟨true, 0⟩) (.position ⟨false, 1⟩))))
      [⟨[0], rfl⟩, ⟨[1], rfl⟩, ⟨[2], rfl⟩] = .ok again ∧ again.Perm [⟨[2], rfl⟩, ⟨[0], rfl⟩] := by
  obtain ⟨hnot, hnodup⟩ := apply_not_complement (t := threeCalls) ⟨.empty, none⟩
    (.or (.position ⟨true, 0⟩) (.position ⟨false, 1⟩)) [⟨[0], rfl⟩, ⟨[1], rfl⟩, ⟨[2], rfl⟩]
  obtain ⟨-, again, hagain, hperm, -⟩ := hnodup [⟨[2], rfl⟩, ⟨[0], rfl⟩] rfl (by decide)
  exact ⟨rfl, (hnot _).mpr ⟨_, rfl, rfl⟩, again, hagain, hperm⟩

/-- Of a candidate that comes twice a position keeps one, and the negation leaves none. -/
example : ∃ kept rest,
    apply (t := threeCalls) ⟨.empty, none⟩ (.position ⟨false, 1⟩) [⟨[0], rfl⟩, ⟨[0], rfl⟩] = .ok kept ∧
    apply (t := threeCalls) ⟨.empty, none⟩ (.not (.position ⟨false, 1⟩)) [⟨[0], rfl⟩, ⟨[0], rfl⟩] = .ok rest ∧
    (kept ++ rest).length = 1 :=
  ⟨_, _, rfl, rfl, rfl⟩

end Semantics

end TreeQuery
