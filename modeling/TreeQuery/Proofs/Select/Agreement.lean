import TreeQuery.Proofs.Select.Distinct

/-!
# Predicates that keep the order

Only `or` changes the order of candidates: it puts what its right side adds after what its left side keeps. A predicate
without it keeps some of the candidates where they are; and if it has no position either, then it is the filter that
tests one candidate after the other, and it can be applied exactly if each of them can be tested.

* `Predicate.hasOr`: some part of a predicate is an `or`;
* `Semantics.apply_sublist`, `Semantics.filters_sublist`: without `or` the candidates stay in order;
* `Semantics.apply_eq_ok_iff`: without `or` and positions, applying a predicate is filtering by its test;
* `Semantics.apply_agrees`: what the two readings of a predicate have in common.
-/

namespace TreeQuery

set_option autoImplicit false

/-- Some part of the predicate is an `or`. -/
def Predicate.hasOr : Predicate → Bool
  | or _ _ => true
  | not p => p.hasOr
  | and p q => p.hasOr || q.hasOr
  | position _ | name _ | flag _ | attr _ => false

namespace Semantics

section Predicates

variable [Regex.Library] {t : Tree} {m : Semantics t} {p q : Predicate} {n : t.Node} {ns ms : List t.Node}

/-! ## Order -/

theorem apply_sublist (hor : p.hasOr = false) (h : m.apply p ns = .ok ms) : ms.Sublist ns := by
  induction p generalizing ns ms with
  | name pattern => exact keepIf_sublist h
  | flag word => exact keepIf_sublist h
  | attr a => exact keepIf_sublist h
  | position p =>
      obtain rfl := Except.ok.inj h
      exact p.pick_sublist ns
  | not p ih =>
      obtain ⟨ks, -, hms⟩ := bind_eq_ok.mp h
      obtain rfl := Except.ok.inj hms
      exact List.filter_sublist
  | and p q ihp ihq =>
      obtain ⟨hp, hq⟩ := Bool.or_eq_false_iff.mp hor
      obtain ⟨ks, hks, hms⟩ := bind_eq_ok.mp h
      exact (ihq hq hms).trans (ihp hp hks)
  | or p q => cases hor

theorem filters_sublist {ps : List Predicate} (hor : ∀ p ∈ ps, p.hasOr = false)
    (h : ps.foldlM (fun ms p => m.apply p ms) ns = .ok ms) : ms.Sublist ns := by
  induction ps generalizing ns with
  | nil =>
      obtain rfl := Except.ok.inj h
      exact .refl _
  | cons p ps ih =>
      obtain ⟨hp, hps⟩ := List.forall_mem_cons.mp hor
      rw [List.foldlM_cons, bind_eq_ok] at h
      obtain ⟨ks, hks, hms⟩ := h
      exact (ih hps hms).trans (apply_sublist hp hks)

/-! ## Tests -/

theorem exists_holds_not : (∃ b, m.holds (.not p) n = .ok b) ↔ ∃ b, m.holds p n = .ok b := by
  constructor
  · rintro ⟨b, hb⟩
    obtain ⟨c, hc, -⟩ := map_eq_ok.mp hb
    exact ⟨c, hc⟩
  · rintro ⟨b, hb⟩
    exact ⟨!b, holds_not hb⟩

theorem passes_holds_not (h : ∃ b, m.holds p n = .ok b) : passes (m.holds (.not p) n) = !passes (m.holds p n) := by
  obtain ⟨b, hb⟩ := h
  rw [holds_not hb, hb]
  rfl

/-- The right operand need not be testable where the left one fails. -/
theorem exists_holds_and : (∃ b, m.holds (.and p q) n = .ok b) ↔
    (∃ b, m.holds p n = .ok b) ∧ (passes (m.holds p n) = true → ∃ b, m.holds q n = .ok b) := by
  rw [holds]
  cases hp : m.holds p n with
  | error e =>
      constructor
      · rintro ⟨b, hb⟩
        cases hb
      · rintro ⟨⟨b, hb⟩, -⟩
        cases hb
  | ok b => cases b <;> simp [passes]

theorem passes_holds_and : passes (m.holds (.and p q) n) = (passes (m.holds p n) && passes (m.holds q n)) := by
  rw [holds]
  cases hp : m.holds p n with
  | error e => rfl
  | ok b => cases b <;> simp [passes]

/-- Without `or` and positions, a predicate can be applied if each candidate can be tested, and keeps in order those
that pass, as often as they come. -/
theorem apply_eq_ok_iff (hposition : p.hasPosition = false) (hor : p.hasOr = false) :
    m.apply p ns = .ok ms ↔
      (∀ n ∈ ns, ∃ b, m.holds p n = .ok b) ∧ ms = ns.filter fun n => passes (m.holds p n) := by
  induction p generalizing ns ms with
  | name pattern => exact keepIf_eq_ok
  | flag word => exact keepIf_eq_ok
  | attr a => exact keepIf_eq_ok
  | position p => cases hposition
  | or p q => cases hor
  | not p ih =>
      have hfilter : (∀ n ∈ ns, ∃ b, m.holds p n = .ok b) →
          ns.filter (· ∉ ns.filter fun n => passes (m.holds p n)) =
            ns.filter fun n => passes (m.holds (.not p) n) := by
        intro hok
        refine List.filter_congr fun n hn => ?_
        rw [passes_holds_not (hok n hn)]
        simp [hn]
      rw [apply, bind_eq_ok]
      simp only [exists_holds_not, ih hposition hor]
      constructor
      · rintro ⟨ks, ⟨hok, rfl⟩, hms⟩
        exact ⟨hok, (Except.ok.inj hms).symm.trans (hfilter hok)⟩
      · rintro ⟨hok, rfl⟩
        exact ⟨_, ⟨hok, rfl⟩, congrArg Except.ok (hfilter hok)⟩
  | and p q ihp ihq =>
      obtain ⟨hpositionp, hpositionq⟩ := Bool.or_eq_false_iff.mp hposition
      obtain ⟨horp, horq⟩ := Bool.or_eq_false_iff.mp hor
      have hfilter : (ns.filter fun n => passes (m.holds p n)).filter (fun n => passes (m.holds q n)) =
          ns.filter fun n => passes (m.holds (.and p q) n) := by
        rw [List.filter_filter]
        refine List.filter_congr fun n _ => ?_
        rw [passes_holds_and, Bool.and_comm]
      rw [apply, bind_eq_ok, ← hfilter]
      simp only [exists_holds_and, ihp hpositionp horp, ihq hpositionq horq]
      -- The right side is asked about what the left side keeps, both here and in the test of one node.
      constructor
      · rintro ⟨ks, ⟨hokp, rfl⟩, hokq, rfl⟩
        exact ⟨fun n hn => ⟨hokp n hn, fun hpass => hokq n (List.mem_filter.mpr ⟨hn, hpass⟩)⟩, rfl⟩
      · rintro ⟨hok, rfl⟩
        refine ⟨_, ⟨fun n hn => (hok n hn).1, rfl⟩, fun n hn => ?_, rfl⟩
        obtain ⟨hn, hpass⟩ := List.mem_filter.mp hn
        exact (hok n hn).2 hpass

/-- **A predicate without positions means the same for a list of candidates and for one node. If it can be applied to
candidates, in whatever order and however often they come, then each of them can be tested, and a node is kept exactly
if it is a candidate that passes. If it has no `or` either, then it can be applied exactly if each candidate can be
tested, and what it keeps are the candidates that pass, in their order and with their repetitions. This holds for
every vocabulary and every provider, also one that fails.** -/
theorem apply_agrees (m : Semantics t) (p : Predicate) (hposition : p.hasPosition = false) (ns : List t.Node) :
    (∀ ms, m.apply p ns = .ok ms →
      (∀ n ∈ ns, ∃ b, m.holds p n = .ok b) ∧ ∀ n, n ∈ ms ↔ n ∈ ns ∧ m.holds p n = .ok true) ∧
    (p.hasOr = false → ∀ ms, m.apply p ns = .ok ms ↔
      (∀ n ∈ ns, ∃ b, m.holds p n = .ok b) ∧ ms = ns.filter fun n => passes (m.holds p n)) :=
  ⟨fun _ h => holds_of_apply hposition h, fun hor _ => apply_eq_ok_iff hposition hor⟩

end Predicates

/-- A class with two methods, the second of them static. -/
def twoMethods : Tree :=
  .node { tag := "class" } [.node { tag := "method" } [], .node { tag := "method", modifiers := ["static"] } []]

/-- A provider that knows the second method and fails on the first. -/
def halfKnown : Provider twoMethods :=
  fun n => if n.route = [0] then .error "unresolved" else .ok (some { kind := "method" })

open scoped Regex.Engine

/-- The first method is not static, so that nothing is asked about it; the second is kept as often as it comes. -/
theorem apply_agrees_static :
    (∀ n ∈ [⟨[1], rfl⟩, ⟨[0], rfl⟩, ⟨[1], rfl⟩], ∃ b, holds (t := twoMethods) ⟨.empty, some halfKnown⟩
      (.and (.flag "static") (.not (.attr ⟨"symbol-kind", .equal, "field", none⟩))) n = .ok b) ∧
    apply (t := twoMethods) ⟨.empty, some halfKnown⟩
      (.and (.flag "static") (.not (.attr ⟨"symbol-kind", .equal, "field", none⟩)))
      [⟨[1], rfl⟩, ⟨[0], rfl⟩, ⟨[1], rfl⟩] = .ok [⟨[1], rfl⟩, ⟨[1], rfl⟩] := by
  obtain ⟨htested, hfiltered⟩ := apply_agrees (t := twoMethods) ⟨.empty, some halfKnown⟩
    (.and (.flag "static") (.not (.attr ⟨"symbol-kind", .equal, "field", none⟩))) rfl
    [⟨[1], rfl⟩, ⟨[0], rfl⟩, ⟨[1], rfl⟩]
  have hok := (htested _ rfl).1
  exact ⟨hok, (hfiltered rfl _).mpr ⟨hok, rfl⟩⟩

end Semantics

end TreeQuery
