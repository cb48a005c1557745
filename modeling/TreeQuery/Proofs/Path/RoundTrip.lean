import Mathlib.Data.List.Forall2
import TreeQuery.Path.Printer
import TreeQuery.Regex.Engine
import TreeQuery.Select.Evaluation
import TreeQuery.Proofs.Path.Acceptance
import TreeQuery.Proofs.Path.Written

/-!
# Reading back what was written

Reading loses nothing that writing keeps: a path that was read, once written, is read again as a path that differs
from it at most in how a test that everything passes is spelled. Such a difference can be seen neither in the
written form nor in what the path selects.

* `Step.Agrees`, `Path.Agrees`: equal up to that difference;
* `Path.Agrees.print_eq`, `Path.Agrees.evaluate_eq`: agreeing paths cannot be told apart;
* `Path.parse_print`: the round trip.
-/

namespace TreeQuery

set_option autoImplicit false

/-! ## Agreement -/

/-- Equal, where no test and the test that is an asterisk are the same. -/
structure Step.Agrees (s r : Step) : Prop where
  axis : s.axis = r.axis
  test : s.test.getD "*" = r.test.getD "*"
  predicates : s.predicates = r.predicates

/-- Agreement does not look at the text that a path was read from. -/
structure Path.Agrees (p q : Path) : Prop where
  absolute : p.absolute = q.absolute
  steps : List.Forall₂ Step.Agrees p.steps q.steps

namespace Step

theorem agrees_spelled (s : Step) : s.spelled.Agrees s := ⟨rfl, rfl, rfl⟩

theorem forall₂_agrees_spelled (ss : List Step) : List.Forall₂ Agrees (ss.map spelled) ss := by
  rw [List.forall₂_map_left_iff, List.forall₂_same]
  exact fun s _ => s.agrees_spelled

/-- Only the spelled test decides which tags pass. -/
theorem admits_eq (s : Step) (tag : Text) :
    s.admits tag = (s.test.getD "*" == ("*" : Text) || tag.sameFolded (s.test.getD "*")) := by
  unfold admits matchesAny
  cases s.test with
  | none => rfl
  | some w => simp

namespace Agrees

variable {s r : Step}

theorem print_eq (h : s.Agrees r) : s.print = r.print := by
  unfold print
  rw [h.axis, h.test, h.predicates]

theorem expand_eq (h : s.Agrees r) {t : Tree} (n : t.Node) : s.expand n = r.expand n := by
  have hadmits : ∀ tag, s.admits tag = r.admits tag := by
    intro tag
    rw [admits_eq, admits_eq, h.test]
  unfold expand
  rw [h.axis]
  exact List.filter_congr fun b _ => hadmits b.tag

theorem step_eq [Regex.Library] (h : s.Agrees r) {t : Tree} (m : Semantics t) (ns : List t.Node) :
    m.step ns s = m.step ns r := by
  have hexpand : (s.expand : t.Node → List t.Node) = r.expand := funext h.expand_eq
  unfold Semantics.step
  rw [h.predicates, hexpand]

end Agrees

end Step

namespace Path

theorem Agrees.print_eq {p q : Path} (h : p.Agrees q) : p.print = q.print := by
  have hsteps : p.steps.map Step.print = q.steps.map Step.print := by
    rw [← List.forall₂_eq_eq_eq, List.forall₂_map_left_iff, List.forall₂_map_right_iff]
    exact h.steps.imp fun _ _ hs => hs.print_eq
  unfold print
  rw [h.absolute, hsteps]

theorem Agrees.evaluate_eq [Regex.Library] {p q : Path} (h : p.Agrees q) {t : Tree} (m : Semantics t)
    (context : t.Node) : m.evaluate p context = m.evaluate q context := by
  have hsteps : ∀ {ss rs : List Step}, List.Forall₂ Step.Agrees ss rs → ∀ ns : List t.Node,
      ss.foldlM m.step ns = rs.foldlM m.step ns := by
    intro ss rs hss
    induction hss with
    | nil => exact fun _ => rfl
    | cons hs _ ih =>
        intro ns
        rw [List.foldlM_cons, List.foldlM_cons, hs.step_eq]
        exact bind_congr ih
  unfold Semantics.evaluate
  rw [h.absolute]
  exact hsteps h.steps _

/-! ## The round trip -/

/-- **A path that was read is written in a form that is read again, as a path that agrees with it, is written the
same and selects the same nodes from every context of every tree.** -/
theorem parse_print [Regex.Library] {strict : Bool} {input : Text} {p : Path}
    (h : Path.parse strict input = .ok p) :
    ∃ q, Path.parse strict p.print = .ok q ∧ q.Agrees p ∧ q.print = p.print ∧
      ∀ (t : Tree) (m : Semantics t) (context : t.Node), m.evaluate q context = m.evaluate p context := by
  obtain ⟨-, ts, hts, hwhole⟩ := whole_of_parse h
  -- What the parser makes of words can be written and read again.
  obtain ⟨hne, hreadable⟩ := Step.readable_of_whole hwhole fun _ => isWord_of_tokens? hts
  have htokens : Grammar.tokens? p.print = some p.tokens := (lexes_print hreadable).tokens?
  have hparse := parse_of_whole htokens (whole_tokens hne hreadable)
  have hagrees : Path.Agrees ⟨p.print, p.absolute, p.steps.map Step.spelled⟩ p :=
    ⟨rfl, Step.forall₂_agrees_spelled p.steps⟩
  exact ⟨_, hparse, hagrees, hagrees.print_eq, fun _ m context => hagrees.evaluate_eq m context⟩

open scoped Regex.Engine

/-- A flag is written as an attribute, a quote is escaped, and the double slash becomes an axis. -/
theorem parse_print_method :
    ∃ p q, Path.parse false "//Method[not(async or @name=\"it's\")][last()-1]" = .ok p ∧
      Path.parse false "/descendant::Method[not(@async or @name='it\\'s')][last()-1]" = .ok q ∧ q.Agrees p := by
  have hread : Path.parse false "//Method[not(async or @name=\"it's\")][last()-1]" =
      .ok ⟨"//Method[not(async or @name=\"it's\")][last()-1]", true, [⟨.descendant, some "Method",
        [.not (.or (.flag "async") (.name "it's")), .position ⟨true, 1⟩]⟩]⟩ := by
    with_unfolding_all rfl
  obtain ⟨q, hq, hagrees, -⟩ := parse_print hread
  exact ⟨_, q, hread, hq, hagrees⟩

end Path

end TreeQuery
