import TreeQuery.Proofs.Result
import TreeQuery.Select.Filter

/-!
# Filtering lists against testing nodes

A predicate without positions filters a list as it tests single nodes: `Semantics.apply` works with whole lists,
where `and` filters what is left, `or` puts two lists together and `not` removes one from the other, and still a node
stays exactly if `Semantics.holds` is true of it.

* `keepIf_eq_ok`, `exists_of_keepIf_eq_error`, `mem_appendUnique`, `mem_distinct`: the operations on lists;
* `Predicate.hasPosition`: some part of a predicate is a position;
* `Semantics.holds_of_apply`: the two readings of a predicate agree;
* `Semantics.mem_filters`: the same for predicates one after the other.
-/

namespace TreeQuery

set_option autoImplicit false

/-! ## Operations on lists -/

section Lists

variable {α ε : Type}

theorem mem_appendUnique [DecidableEq α] {x : α} {xs ys : List α} :
    x ∈ appendUnique xs ys ↔ x ∈ xs ∨ x ∈ ys := by
  induction ys generalizing xs with
  | nil => simp [appendUnique]
  | cons y ys ih =>
      rw [appendUnique]
      by_cases hy : y ∈ xs
      · rw [if_pos hy, ih, List.mem_cons]
        constructor
        · exact Or.imp_right .inr
        · rintro (hx | rfl | hx)
          · exact .inl hx
          · exact .inl hy
          · exact .inr hx
      · rw [if_neg hy, ih, List.mem_append, List.mem_singleton, List.mem_cons, or_assoc]

theorem mem_distinct [DecidableEq α] {x : α} {xs : List α} : x ∈ distinct xs ↔ x ∈ xs := by
  rw [distinct, mem_appendUnique]
  exact or_iff_right List.not_mem_nil

/-- A test succeeds and is passed. -/
def passes : Except ε Bool → Bool
  | .ok b => b
  | .error _ => false

theorem passes_iff {r : Except ε Bool} : passes r = true ↔ r = .ok true := by
  cases r with
  | error e => exact ⟨nofun, nofun⟩
  | ok b => exact ⟨fun h => congrArg Except.ok h, Except.ok.inj⟩

/-- Filtering succeeds if each test does, and then keeps in order what passes. -/
theorem keepIf_eq_ok {test : α → Except ε Bool} {xs ys : List α} :
    keepIf test xs = .ok ys ↔ (∀ x ∈ xs, ∃ b, test x = .ok b) ∧ ys = xs.filter fun x => passes (test x) := by
  induction xs generalizing ys with
  | nil =>
      rw [keepIf, Except.ok.injEq]
      exact ⟨fun h => ⟨nofun, h.symm⟩, fun h => h.2.symm⟩
  | cons x xs ih =>
      rw [keepIf]
      cases hx : test x with
      | error e =>
          refine ⟨nofun, fun ⟨hok, _⟩ => ?_⟩
          obtain ⟨b, hb⟩ := hok x List.mem_cons_self
          cases hx.symm.trans hb
      | ok keep =>
          rw [ok_bind, bind_eq_ok, List.forall_mem_cons, List.filter_cons, hx]
          constructor
          · rintro ⟨rest, hrest, hys⟩
            obtain ⟨hok, rfl⟩ := ih.mp hrest
            exact ⟨⟨⟨keep, rfl⟩, hok⟩, (Except.ok.inj hys).symm⟩
          · rintro ⟨⟨-, hok⟩, rfl⟩
            exact ⟨_, ih.mpr ⟨hok, rfl⟩, rfl⟩

theorem exists_of_keepIf_eq_error {test : α → Except ε Bool} {xs : List α} {e : ε} (h : keepIf test xs = .error e) :
    ∃ x ∈ xs, test x = .error e := by
  induction xs with
  | nil => cases h
  | cons x xs ih =>
      rw [keepIf, bind_eq_error] at h
      rcases h with h | ⟨keep, -, h⟩
      · exact ⟨x, List.mem_cons_self, h⟩
      · obtain ⟨y, hy, htest⟩ := ih (bind_ok_eq_error.mp h)
        exact ⟨y, List.mem_cons_of_mem x hy, htest⟩

theorem mem_keepIf {test : α → Except ε Bool} {xs ys : List α} (h : keepIf test xs = .ok ys) (x : α) :
    x ∈ ys ↔ x ∈ xs ∧ test x = .ok true := by
  rw [(keepIf_eq_ok.mp h).2, List.mem_filter, passes_iff]

end Lists

/-! ## Predicates without positions -/

/-- Some part of the predicate is a position. -/
def Predicate.hasPosition : Predicate → Bool
  | position _ => true
  | not p => p.hasPosition
  | and p q | or p q => p.hasPosition || q.hasPosition
  | name _ | flag _ | attr _ => false

namespace Semantics

variable [Regex.Library] {t : Tree} {m : Semantics t}

theorem holds_not {p : Predicate} {n : t.Node} {b : Bool} (h : m.holds p n = .ok b) :
    m.holds (.not p) n = .ok (!b) := by
  rw [holds, h, map_ok]

/-- The right operand of `and` only has to be tested where the left one passes. -/
theorem holds_and {p q : Predicate} {n : t.Node} {b : Bool} (hp : m.holds p n = .ok b)
    (hq : b = true → ∃ c, m.holds q n = .ok c) :
    (∃ c, m.holds (.and p q) n = .ok c) ∧
      (m.holds (.and p q) n = .ok true ↔ m.holds p n = .ok true ∧ m.holds q n = .ok true) := by
  rw [holds, hp, ok_bind]
  cases b with
  | false => simp
  | true => simpa using hq rfl

theorem holds_or {p q : Predicate} {n : t.Node} {b : Bool} (hp : m.holds p n = .ok b)
    (hq : ∃ c, m.holds q n = .ok c) :
    (∃ c, m.holds (.or p q) n = .ok c) ∧
      (m.holds (.or p q) n = .ok true ↔ m.holds p n = .ok true ∨ m.holds q n = .ok true) := by
  rw [holds, hp, ok_bind]
  cases b with
  | false => simpa using hq
  | true => simp

/-- If a list can be filtered, each of its nodes can be tested, and those stay that pass. -/
theorem holds_of_apply {p : Predicate} (hp : p.hasPosition = false) {ns ms : List t.Node}
    (h : m.apply p ns = .ok ms) :
    (∀ n ∈ ns, ∃ b, m.holds p n = .ok b) ∧ ∀ n, n ∈ ms ↔ n ∈ ns ∧ m.holds p n = .ok true := by
  induction p generalizing ns ms with
  | name pattern => exact ⟨(keepIf_eq_ok.mp h).1, mem_keepIf h⟩
  | flag word => exact ⟨(keepIf_eq_ok.mp h).1, mem_keepIf h⟩
  | attr a => exact ⟨(keepIf_eq_ok.mp h).1, mem_keepIf h⟩
  | position p => cases hp
  | not p ih =>
      obtain ⟨ks, hks, hms⟩ := bind_eq_ok.mp h
      obtain rfl := Except.ok.inj hms
      obtain ⟨hok, hmem⟩ := ih hp hks
      refine ⟨fun n hn => ?_, fun n => ?_⟩
      · obtain ⟨b, hb⟩ := hok n hn
        exact ⟨!b, holds_not hb⟩
      · rw [List.mem_filter, decide_eq_true_iff, hmem]
        refine and_congr_right fun hn => ?_
        obtain ⟨b, hb⟩ := hok n hn
        rw [holds_not hb, hb]
        cases b <;> simp [hn]
  | and p q ihp ihq =>
      obtain ⟨hp, hq⟩ := Bool.or_eq_false_iff.mp hp
      obtain ⟨ks, hks, hms⟩ := bind_eq_ok.mp h
      obtain ⟨hokp, hmemp⟩ := ihp hp hks
      obtain ⟨hokq, hmemq⟩ := ihq hq hms
      -- The right side sees only what the left side keeps.
      have htest : ∀ n ∈ ns, (∃ b, m.holds (.and p q) n = .ok b) ∧
          (m.holds (.and p q) n = .ok true ↔ m.holds p n = .ok true ∧ m.holds q n = .ok true) := by
        intro n hn
        obtain ⟨b, hb⟩ := hokp n hn
        exact holds_and hb fun hbtrue => hokq n ((hmemp n).mpr ⟨hn, hbtrue ▸ hb⟩)
      refine ⟨fun n hn => (htest n hn).1, fun n => ?_⟩
      rw [hmemq, hmemp, and_assoc]
      exact and_congr_right fun hn => (htest n hn).2.symm
  | or p q ihp ihq =>
      obtain ⟨hp, hq⟩ := Bool.or_eq_false_iff.mp hp
      obtain ⟨ks, hks, h⟩ := bind_eq_ok.mp h
      obtain ⟨ls, hls, hms⟩ := bind_eq_ok.mp h
      obtain rfl := Except.ok.inj hms
      obtain ⟨hokp, hmemp⟩ := ihp hp hks
      obtain ⟨hokq, hmemq⟩ := ihq hq hls
      have htest : ∀ n ∈ ns, (∃ b, m.holds (.or p q) n = .ok b) ∧
          (m.holds (.or p q) n = .ok true ↔ m.holds p n = .ok true ∨ m.holds q n = .ok true) := by
        intro n hn
        obtain ⟨b, hb⟩ := hokp n hn
        exact holds_or hb (hokq n hn)
      refine ⟨fun n hn => (htest n hn).1, fun n => ?_⟩
      rw [mem_appendUnique, hmemp, hmemq, ← and_or_left]
      exact and_congr_right fun hn => (htest n hn).2.symm

theorem mem_filters {ps : List Predicate} (hps : ∀ p ∈ ps, p.hasPosition = false) {ns ms : List t.Node}
    (h : ps.foldlM (fun ms p => m.apply p ms) ns = .ok ms) (n : t.Node) :
    n ∈ ms ↔ n ∈ ns ∧ ∀ p ∈ ps, m.holds p n = .ok true := by
  induction ps generalizing ns with
  | nil =>
      obtain rfl := Except.ok.inj h
      simp
  | cons p ps ih =>
      obtain ⟨hp, hps⟩ := List.forall_mem_cons.mp hps
      rw [List.foldlM_cons, bind_eq_ok] at h
      obtain ⟨ks, hks, hms⟩ := h
      rw [ih hps hms, (holds_of_apply hp hks).2, and_assoc, List.forall_mem_cons]

end Semantics

end TreeQuery
