import TreeQuery.Proofs.Path.Acceptance
import TreeQuery.Proofs.Path.Written
import TreeQuery.Proofs.Select.FirstSeen
import TreeQuery.Proofs.Session.Reference
import TreeQuery.Proofs.Tree.Order
import TreeQuery.Regex.Engine

/-!
# Paths that name nodes by their places

A path such as `/*[2]/*[1]` says which child to take at each level, counted from one, and nothing else; a reference
holds the same indices, counted from zero. The two lead to the same nodes: a step takes the children of the one node at
hand and picks one of them by its place, so the steps follow the route of the indices down from the top.

* `Positional.text`: the path for a list of child indices;
* `Positional.parse_text`: how it is read;
* `Positional.step_eq`, `Positional.steps_eq`: where one step and where all steps lead;
* `Positional.evaluate_text`: what the path selects, and what references with these indices resolve to.
-/

namespace TreeQuery.Positional

set_option autoImplicit false

open Tree.Node Grammar

/-- The path that follows child indices down from the top: each is written as a place, counted from one. -/
def text (route : List Nat) : Text :=
  if route.isEmpty then "/" else route.flatMap fun i => ("/*[" : Text) ++ Text.ofNat (i + 1) ++ ("]" : Text)

def stepTokens (i : Nat) : List Token := [.star, .openBracket, .number (Text.ofNat (i + 1)), .closeBracket]

/-- To the child at index `i`, whatever its tag. -/
def step (i : Nat) : Step := ⟨.child, some "*", [.position ⟨false, i + 1⟩]⟩

theorem getElem?_children_eq {t : Tree} (n : t.Node) (i : Nat) : n.children[i]? = n.child? i :=
  Option.ext fun _ => getElem?_children.trans child?_eq_some.symm

theorem expand_eq {t : Tree} (n : t.Node) (i : Nat) : (step i).expand n = n.children :=
  List.filter_eq_self.mpr fun _ _ => rfl

/-! ## Reading -/

theorem lexes_text (route : List Nat) :
    Lexes (route.flatMap fun i => ("/*[" : Text) ++ Text.ofNat (i + 1) ++ ("]" : Text))
      (route.flatMap fun i => .slash :: stepTokens i) := by
  induction route with
  | nil => exact lexes_nil
  | cons i route ih =>
      have hclose := ih.symbol (b := 0x5d) rfl rfl
      have hnumber := hclose.number (n := i + 1) rfl
      have hopen := hnumber.symbol (b := 0x5b) rfl rfl
      have hstar := (hopen.star rfl).slash nofun
      rw [List.flatMap_cons, List.flatMap_cons, List.append_assoc, List.append_assoc]
      exact hstar

section Paths

variable [Regex.Library]

theorem single_step (strict : Bool) {i : Nat} (h : i < 0xffffffffffffffff) :
    Single strict false (stepTokens i) [step i] := by
  have hposition : Expression strict .primary _ (.position ⟨false, i + 1⟩) := Position.expression_tokens h
  have hpredicates := Predicates.nil.cons (.conjunction (.unary (.primary hposition nofun)))
  exact .bare .star hpredicates

theorem steps_route (strict : Bool) {i : Nat} {route : List Nat} (h : ∀ j ∈ i :: route, j < 0xffffffffffffffff) :
    Steps strict false (stepTokens i ++ route.flatMap fun j => .slash :: stepTokens j) ((i :: route).map step) := by
  induction route generalizing i with
  | nil =>
      have hone := Steps.one (single_step strict (h i List.mem_cons_self))
      simpa using hone
  | cons j route ih =>
      obtain ⟨hi, hmore⟩ := List.forall_mem_cons.mp h
      have hcons := Steps.cons (single_step strict hi) .slash (ih hmore)
      simpa using hcons

theorem parse_text (strict : Bool) {route : List Nat} (h : ∀ i ∈ route, i < 0xffffffffffffffff) :
    Path.parse strict (text route) = .ok ⟨text route, true, route.map step⟩ := by
  cases route with
  | nil => exact Path.parse_of_whole (lexes_nil.slash nofun).tokens? .top
  | cons i route =>
      have hwhole := Whole.absolute .slash (steps_route strict h)
      exact Path.parse_of_whole (lexes_text (i :: route)).tokens? hwhole

/-! ## Following the steps -/

variable {t : Tree} (m : Semantics t)

/-- From one node, a step leads to the child at its index, if there is one. -/
theorem step_eq (n : t.Node) (i : Nat) : m.step [n] (step i) = .ok (n.child? i).toList := by
  have hnodup : n.children.Nodup := n.children_increasing.imp Before.ne
  have hpick : Position.pick ⟨false, i + 1⟩ n.children = (n.child? i).toList := by
    rw [← getElem?_children_eq]
    rfl
  rw [Semantics.step, List.flatMap_singleton, expand_eq, distinct_of_nodup hnodup, ← hpick]
  rfl

theorem steps_nil (route : List Nat) : (route.map step).foldlM m.step [] = .ok [] := by
  induction route with
  | nil => rfl
  | cons i route ih => exact ih

/-- The steps go from child to child, and stay without a node where there is none. -/
theorem steps_eq (n : t.Node) (route : List Nat) :
    (route.map step).foldlM m.step [n] = .ok (route.foldlM child? n).toList := by
  induction route generalizing n with
  | nil => rfl
  | cons i route ih =>
      rw [List.map_cons, List.foldlM_cons, step_eq, ok_bind, List.foldlM_cons]
      cases n.child? i with
      | some c => exact ih c
      | none => exact steps_nil m route

/-! ## Paths and references -/

/-- **For child indices that can be counted from one in 64 bits, the path that names their places can be read, and from
every context it selects the one node to which they lead from the top, or nothing if some index is out of range. So a
reference with these indices, resolved from the top of the tree, finds the node that the path selects, as far as the
tag and the name recorded with them are those of the node.** -/
theorem evaluate_text (strict : Bool) {route : List Nat} (h : ∀ i ∈ route, i < 0xffffffffffffffff) (context : t.Node) :
    ∃ p ns, Path.parse strict (text route) = .ok p ∧ m.evaluate p context = .ok ns ∧
      (∀ n, Descends (.top t) route n → ns = [n]) ∧ ((∀ n, ¬ Descends (.top t) route n) → ns = []) ∧
      ∀ (id key : Nat) (file : Option Text) (r : Reference) (n : t.Node), r.route = route →
        (Snapshot.resolve? ⟨id, ⟨key, t⟩, .top t, file⟩ r = some n ↔
          ns = [n] ∧ n.tag = r.tag ∧ ∀ name ∈ r.name, n.name = some name) := by
  have hfound : ∀ n, (route.foldlM child? (top t)).toList = [n] ↔ Descends (.top t) route n := by
    intro n
    rw [Option.toList_eq_singleton_iff, Snapshot.foldlM_child?, at?_eq_some, descends_iff]
  refine ⟨_, (route.foldlM child? (top t)).toList, parse_text strict h, steps_eq m (.top t) route,
    fun n => (hfound n).mpr, ?_, ?_⟩
  · intro hnone
    cases hend : route.foldlM child? (top t) with
    | none => rfl
    | some c => exact absurd ((hfound c).mp (by rw [hend]; rfl)) (hnone c)
  · rintro id key file r n rfl
    rw [Snapshot.resolve?_eq_some_iff, hfound]

end Paths

open scoped Regex.Engine

/-- A class with an empty method and one that has a block. -/
def classWithBlock : Tree :=
  .node { tag := "class" } [.node { tag := "method" } [], .node { tag := "method" } [.node { tag := "block" } []]]

/-- The first child of the second child, and a third child that is not there. -/
theorem evaluate_text_block :
    (∃ p, Path.parse false "/*[2]/*[1]" = .ok p ∧
      Semantics.evaluate ⟨.default, none⟩ p ⟨[0], rfl⟩ = .ok [(⟨[1, 0], rfl⟩ : classWithBlock.Node)]) ∧
    ∃ p, Path.parse false "/*[3]" = .ok p ∧
      Semantics.evaluate ⟨.default, none⟩ p (⟨[0], rfl⟩ : classWithBlock.Node) = .ok [] := by
  have hsecond : ∀ i ∈ [1, 0], i < 0xffffffffffffffff := by decide
  have hthird : ∀ i ∈ [2], i < 0xffffffffffffffff := by decide
  obtain ⟨p, ns, hp, hns, hfound, -⟩ :=
    evaluate_text (t := classWithBlock) ⟨.default, none⟩ false hsecond ⟨[0], rfl⟩
  obtain ⟨q, ms, hq, hms, -, hnone, -⟩ :=
    evaluate_text (t := classWithBlock) ⟨.default, none⟩ false hthird ⟨[0], rfl⟩
  have hblock : Descends (.top classWithBlock) [1, 0] ⟨[1, 0], rfl⟩ := descends_iff.mpr rfl
  have hmissing : ∀ n, ¬ Descends (.top classWithBlock) [2] n := by
    intro n hn
    have hinside := n.inside
    rw [hn.route_eq] at hinside
    cases hinside
  exact ⟨⟨p, hp, hfound _ hblock ▸ hns⟩, q, hq, hnone hmissing ▸ hms⟩

end TreeQuery.Positional
