import TreeQuery.Proofs.Select.Agreement
import TreeQuery.Proofs.Select.FirstSeen

/-!
# Paths one after the other

Evaluation drops repetitions after every step. For steps whose predicates only filter it makes no difference when they
are dropped, since such steps work on each node by itself: from a list of nodes they lead to where they lead from its
nodes one after the other, each end where it is first met, and they fail exactly if they fail from one of the nodes. So
a path followed by such steps selects what the steps select from each node of the path in turn.

* `Spreads`: a function on lists works on each member by itself;
* `spreads_ok`, `Spreads.bind`, `spreads_foldlM`: so does what is put together from such functions;
* `Spreads.eq_ok_iff`: its results in terms of those for single members;
* `Semantics.spreads_apply`, `Semantics.spreads_step`: predicates and steps that only filter are such functions;
* `Semantics.evaluate_append`: evaluation of a path that is put together.
-/

namespace TreeQuery

set_option autoImplicit false

/-! ## Functions that work on each member -/

section Spreading

variable {ε α β : Type} [DecidableEq α] {f g : List α → Except ε (List α)} {xs ys : List α}

/-- The function works on each member of a list by itself. It gives a result if it can for each of them, and this is
what comes out for one after the other, each where it is first met. -/
def Spreads (f : List α → Except ε (List α)) : Prop :=
  ∃ (can : α → Prop) (out : α → List α), ∀ xs ys, xs.Nodup →
    (f xs = .ok ys ↔ (∀ x ∈ xs, can x) ∧ ys = distinct (xs.flatMap out))

theorem spreads_distinct (out : α → List α) :
    Spreads fun xs => (.ok (distinct (xs.flatMap out)) : Except ε (List α)) := by
  refine ⟨fun _ => True, out, fun xs ys _ => ?_⟩
  rw [Except.ok.injEq, eq_comm]
  exact (and_iff_right fun _ _ => trivial).symm

theorem spreads_ok : Spreads (.ok : List α → Except ε (List α)) := by
  refine ⟨fun _ => True, fun x => [x], fun xs ys hxs => ?_⟩
  rw [List.flatMap_singleton', distinct_of_nodup hxs, Except.ok.injEq, eq_comm]
  exact (and_iff_right fun _ _ => trivial).symm

/-- What comes out more than once goes in only once, which changes nothing. -/
theorem Spreads.bind (hf : Spreads f) (hg : Spreads g) : Spreads fun xs => f xs >>= g := by
  obtain ⟨can, out, hf⟩ := hf
  obtain ⟨can', out', hg⟩ := hg
  refine ⟨fun x => can x ∧ ∀ y ∈ out x, can' y, fun x => (out x).flatMap out', fun xs zs hxs => ?_⟩
  have hlater : g (distinct (xs.flatMap out)) = .ok zs ↔ (∀ y ∈ distinct (xs.flatMap out), can' y) ∧
      zs = distinct (xs.flatMap fun x => (out x).flatMap out') := by
    rw [hg _ _ (nodup_distinct _), distinct_distinct_flatMap, List.flatMap_assoc]
  rw [bind_eq_ok]
  constructor
  · rintro ⟨ys, hys, hzs⟩
    obtain ⟨hcan, rfl⟩ := (hf xs ys hxs).mp hys
    obtain ⟨hcan', rfl⟩ := hlater.mp hzs
    exact ⟨fun x hx => ⟨hcan x hx, fun y hy => hcan' y (mem_distinct.mpr (List.mem_flatMap.mpr ⟨x, hx, hy⟩))⟩, rfl⟩
  · rintro ⟨hcan, rfl⟩
    refine ⟨_, (hf xs _ hxs).mpr ⟨fun x hx => (hcan x hx).1, rfl⟩, hlater.mpr ⟨fun y hy => ?_, rfl⟩⟩
    obtain ⟨x, hx, hy⟩ := List.mem_flatMap.mp (mem_distinct.mp hy)
    exact (hcan x hx).2 y hy

theorem spreads_foldlM {f : List α → β → Except ε (List α)} {bs : List β} (hf : ∀ b ∈ bs, Spreads (f · b)) :
    Spreads fun xs => bs.foldlM f xs := by
  induction bs with
  | nil => exact spreads_ok
  | cons b bs ih =>
      obtain ⟨hb, hbs⟩ := List.forall_mem_cons.mp hf
      simp only [List.foldlM_cons]
      exact hb.bind (ih hbs)

/-- From a list the function gives what it gives for its members, and fails only where it fails for one of them. -/
theorem Spreads.eq_ok_iff (hf : Spreads f) (hxs : xs.Nodup) : f xs = .ok ys ↔
    ∃ out : α → List α, (∀ x ∈ xs, f [x] = .ok (out x)) ∧ ys = distinct (xs.flatMap out) := by
  obtain ⟨can, out, hf⟩ := hf
  have hone : ∀ x ys, f [x] = .ok ys ↔ can x ∧ ys = distinct (out x) := by
    intro x ys
    rw [hf _ _ (List.nodup_singleton x), List.forall_mem_singleton, List.flatMap_singleton]
  rw [hf xs ys hxs]
  constructor
  · rintro ⟨hcan, rfl⟩
    exact ⟨fun x => distinct (out x), fun x hx => (hone x _).mpr ⟨hcan x hx, rfl⟩,
      (distinct_flatMap_distinct out xs).symm⟩
  · rintro ⟨found, hfound, rfl⟩
    refine ⟨fun x hx => ((hone x _).mp (hfound x hx)).1, ?_⟩
    rw [← distinct_flatMap_distinct out, List.flatMap_congr fun x hx => ((hone x _).mp (hfound x hx)).2]

end Spreading

namespace Semantics

section Steps

variable [Regex.Library] {t : Tree} {m : Semantics t}

/-! ## Steps -/

theorem spreads_apply {p : Predicate} (hp : p.hasPosition = false ∧ p.hasOr = false) : Spreads (m.apply p) := by
  refine ⟨fun n => ∃ b, m.holds p n = .ok b, fun n => [n].filter fun n => passes (m.holds p n), fun ns ms hns => ?_⟩
  rw [apply_eq_ok_iff hp.1 hp.2, ← List.filter_flatMap, List.flatMap_singleton', distinct_of_nodup (hns.filter _)]

theorem spreads_step {s : Step} (hs : ∀ p ∈ s.predicates, p.hasPosition = false ∧ p.hasOr = false) :
    Spreads (m.step · s) :=
  (spreads_distinct s.expand).bind (spreads_foldlM fun p hp => spreads_apply (hs p hp))

/-! ## Paths -/

/-- **A path can be continued by steps whose predicates have neither positions nor `or`. The longer path can be
evaluated exactly if the first can be and then the steps as a relative path from each of its nodes, and it selects what
the steps select from one node after the other, where of each node only the first occurrence stays. This holds for every
library and every provider; and with a provider that fails on no node, and as long as no search is given up, all of it
can be evaluated.** -/
theorem evaluate_append (m : Semantics t) (p : Path) (q : List Step)
    (hq : ∀ s ∈ q, ∀ r ∈ s.predicates, r.hasPosition = false ∧ r.hasOr = false) (text text' : Text)
    (context : t.Node) :
    (∀ ms, m.evaluate ⟨text', p.absolute, p.steps ++ q⟩ context = .ok ms ↔
      ∃ (ns : List t.Node) (found : t.Node → List t.Node), m.evaluate p context = .ok ns ∧
        (∀ n ∈ ns, m.evaluate ⟨text, false, q⟩ n = .ok (found n)) ∧ ms = (ns.flatMap found).eraseDups) ∧
    (m.IsTotal ((p.steps ++ q).flatMap Step.expressions) →
      ∃ (ns : List t.Node) (found : t.Node → List t.Node), m.evaluate p context = .ok ns ∧
        (∀ n, m.evaluate ⟨text, false, q⟩ n = .ok (found n)) ∧
        m.evaluate ⟨text', p.absolute, p.steps ++ q⟩ context = .ok (ns.flatMap found).eraseDups) := by
  have hspreads : Spreads fun ns => q.foldlM m.step ns := spreads_foldlM fun s hs => spreads_step (hq s hs)
  have hlaw : ∀ ms, m.evaluate ⟨text', p.absolute, p.steps ++ q⟩ context = .ok ms ↔
      ∃ (ns : List t.Node) (found : t.Node → List t.Node), m.evaluate p context = .ok ns ∧
        (∀ n ∈ ns, m.evaluate ⟨text, false, q⟩ n = .ok (found n)) ∧ ms = (ns.flatMap found).eraseDups := by
    intro ms
    rw [evaluate, List.foldlM_append, bind_eq_ok]
    refine exists_congr fun ns => ?_
    rw [exists_and_left]
    refine and_congr_right fun hns => ?_
    rw [hspreads.eq_ok_iff (steps_reach (List.nodup_singleton _) hns).1]
    simp only [distinct_eq_eraseDups]
    rfl
  refine ⟨hlaw, fun hm => ?_⟩
  rw [List.flatMap_append] at hm
  obtain ⟨ns, hns⟩ := (hm.mono (List.subset_append_left _ _)).steps [if p.absolute then .top t else context]
  choose found hfound using fun n : t.Node => (hm.mono (List.subset_append_right _ _)).steps [n]
  exact ⟨ns, found, hns, hfound, (hlaw _).mpr ⟨ns, found, hns, fun n _ => hfound n, rfl⟩⟩

end Steps

open scoped Regex.Engine

/-- From the first method and from the static one, to the methods of the class. -/
theorem evaluate_append_methods :
    ∃ (ns : List twoMethods.Node) (found : twoMethods.Node → List twoMethods.Node),
      evaluate ⟨.empty, some fun _ => .ok none⟩
        ⟨[], true, [⟨.descendant, some "method", [.or (.flag "static") (.position ⟨false, 1⟩)]⟩]⟩ ⟨[1], rfl⟩ = .ok ns ∧
      (∀ n, evaluate ⟨.empty, some fun _ => .ok none⟩
        ⟨[], false, [⟨.parent, none, []⟩, ⟨.child, some "method", []⟩]⟩ n = .ok (found n)) ∧
      (ns.flatMap found).eraseDups = [⟨[0], rfl⟩, ⟨[1], rfl⟩] := by
  obtain ⟨-, htotal⟩ := evaluate_append (t := twoMethods) ⟨.empty, some fun _ => .ok none⟩
    ⟨[], true, [⟨.descendant, some "method", [.or (.flag "static") (.position ⟨false, 1⟩)]⟩]⟩
    [⟨.parent, none, []⟩, ⟨.child, some "method", []⟩] (by decide) [] [] ⟨[1], rfl⟩
  obtain ⟨ns, found, hns, hfound, happend⟩ := htotal (isTotal_of_provider (by rintro ask ⟨⟩ n; exact ⟨none, rfl⟩) _)
  exact ⟨ns, found, hns, hfound, Except.ok.inj (happend.symm.trans rfl)⟩

end Semantics

end TreeQuery
