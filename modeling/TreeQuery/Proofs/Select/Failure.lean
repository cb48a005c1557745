import TreeQuery.Proofs.Regex.Engine
import TreeQuery.Proofs.Regex.Wildcard
import TreeQuery.Proofs.Select.Filter
import TreeQuery.Select.Evaluation

/-!
# How an evaluation can fail

Two things outside an evaluation can make it fail: the provider, when it is asked about a node, and the library of
regular expressions, when it gives up the search for an expression of the path in a text that belongs to a node. There
is nothing else. A position is never asked of a single node, since a list of candidates is filtered by positions before
anything is tested, and the expression for a wildcard pattern is never refused.

* `Predicate.expressions`, `Path.expressions`: the expressions that are searched for;
* `Semantics.Shows`: the texts of a node in which they are searched for;
* `Semantics.Fails`: the provider fails, or a search is given up;
* `Semantics.fails_of_apply`, `Semantics.fails_of_steps`: predicates and the steps of a path fail in these ways only;
* `Semantics.Finishes`, `Semantics.IsTotal`: no search is given up, and the provider does not fail either, so that there
  is a result.
-/

namespace TreeQuery

set_option autoImplicit false

open Regex (Library)

/-! ## Expressions -/

/-- The expression for a pattern, if it has wildcards. -/
def Wildcard.expressions (pattern : Text) : List Regex := if occursIn pattern then [regex pattern] else []

theorem Wildcard.mem_expressions {pattern : Text} (h : occursIn pattern = true) :
    regex pattern ∈ expressions pattern := by
  rw [expressions, if_pos h]
  exact List.mem_singleton_self _

/-- The expressions in a predicate: those of its wildcard patterns and those that it gives itself. -/
def Predicate.expressions : Predicate → List Regex
  | name pattern => Wildcard.expressions pattern
  | attr a => Wildcard.expressions a.value ++ a.regex.toList
  | not p => p.expressions
  | and p q | or p q => p.expressions ++ q.expressions
  | flag _ | position _ => []

def Step.expressions (s : Step) : List Regex := s.predicates.flatMap Predicate.expressions

def Path.expressions (p : Path) : List Regex := p.steps.flatMap Step.expressions

namespace Semantics

variable {t : Tree} (m : Semantics t)

/-- The texts that belong to a node: the values of its attributes, and its modifiers in both spellings. -/
inductive Shows (n : t.Node) : Text → Prop where
  | value {name v : Text} : m.attribute? n name = .ok (some v) → Shows n v
  | modifier {word : Text} : word ∈ n.label.modifiers → Shows n word
  | canonical {word : Text} : word ∈ n.label.modifiers → Shows n (m.vocabulary.canonical word)

/-! ## Failures -/

/-- The provider fails on some node of the tree, or the library gives up the search for one of the expressions in a text
of some node; and `e` is this failure. -/
inductive Fails [Library] (rs : List Regex) : TestError → Prop where
  | provider {ask : Provider t} {n : t.Node} {message : Text} : ask ∈ m.provider → ask n = .error message →
      Fails rs (.provider message)
  | givenUp {r : Regex} {n : t.Node} {text message : Text} : r ∈ rs → m.Shows n text →
      Library.search r text = .error message → Fails rs (.regex (.givenUp message))

variable [Library] {m} {rs : List Regex} {e : TestError} {n : t.Node} {ns : List t.Node}

theorem Fails.mono {rs' : List Regex} (h : m.Fails rs e) (hrs : rs ⊆ rs') : m.Fails rs' e := by
  cases h with
  | provider hask hn => exact .provider hask hn
  | givenUp hr hshows hsearch => exact .givenUp (hrs hr) hshows hsearch

theorem fails_of_symbol? (h : m.symbol? n = .error e) : m.Fails rs e := by
  unfold symbol? at h
  cases hask : m.provider with
  | none =>
      rw [hask] at h
      cases h
  | some ask =>
      rw [hask] at h
      obtain ⟨message, hmessage, rfl⟩ := mapError_eq_error.mp h
      exact .provider hask hmessage

theorem fails_of_attribute? {name : Text} (h : m.attribute? n name = .error e) : m.Fails rs e := by
  unfold attribute? at h
  split_ifs at h
  · exact fails_of_symbol? (map_eq_error.mp h)
  · exact fails_of_symbol? (map_eq_error.mp h)
  · exact fails_of_symbol? (map_eq_error.mp h)

/-! ## Texts -/

section Texts

variable {e : Regex.Error} {text : Text}

theorem fails_of_foundIn {r : Regex} (hr : r ∈ rs) (htext : m.Shows n text) (h : r.foundIn text = .error e) :
    m.Fails rs (.regex e) := by
  obtain ⟨message, hsearch, rfl⟩ := mapError_eq_error.mp h
  exact .givenUp hr htext hsearch

theorem fails_of_valueMatches {a : AttributeTest} (htext : m.Shows n text) (h : valueMatches a text = .error e) :
    m.Fails a.regex.toList (.regex e) := by
  unfold valueMatches at h
  split at h
  · cases h
  · rename_i r hr
    exact fails_of_foundIn (Option.mem_toList.mpr hr) htext h

theorem fails_of_valueContains {a : AttributeTest} (htext : m.Shows n text) (h : valueContains a text = .error e) :
    m.Fails (Predicate.attr a).expressions (.regex e) := by
  unfold valueContains at h
  split_ifs at h
  exact (fails_of_valueMatches htext h).mono (List.subset_append_right _ _)

variable (hlib : Library.Documented)

include hlib

theorem fails_of_accepts {pattern : Text} {ignoreCase : Bool} (htext : m.Shows n text)
    (h : Wildcard.accepts pattern text ignoreCase = .error e) : m.Fails (Wildcard.expressions pattern) (.regex e) := by
  by_cases hwild : Wildcard.occursIn pattern = true
  · rw [Wildcard.accepts_of_occursIn hlib hwild] at h
    exact fails_of_foundIn (Wildcard.mem_expressions hwild) htext h
  · rw [Wildcard.accepts, if_neg hwild] at h
    cases h

theorem fails_of_nameHolds {pattern : Text} (h : nameHolds pattern n = .error e) :
    m.Fails (Wildcard.expressions pattern) (.regex e) := by
  unfold nameHolds at h
  split at h
  · cases h
  · rename_i name hname
    have hvalue : m.attribute? n "name" = .ok (some name) := congrArg Except.ok hname
    exact fails_of_accepts hlib (.value hvalue) h

theorem fails_of_hasModifierLike {pattern : Text} (h : m.hasModifierLike pattern n = .error e) :
    m.Fails (Wildcard.expressions pattern) (.regex e) := by
  unfold hasModifierLike at h
  split_ifs at h
  obtain ⟨word, hword, h⟩ := exists_of_anyM_eq_error h
  rcases bind_eq_error.mp h with h | ⟨_ | _, -, h⟩
  · exact fails_of_accepts hlib (.canonical hword) h
  · exact fails_of_accepts hlib (.modifier hword) h
  · cases h

theorem fails_of_modifiersHold {a : AttributeTest} (h : m.modifiersHold a n = .error e) :
    m.Fails (Wildcard.expressions a.value) (.regex e) := by
  unfold modifiersHold at h
  split at h
  · cases h
  · exact fails_of_hasModifierLike hlib (map_eq_error.mp h)
  · exact fails_of_hasModifierLike hlib h
  · exact fails_of_hasModifierLike hlib h

theorem fails_of_valueEquals {a : AttributeTest} (htext : m.Shows n text) (h : valueEquals a text = .error e) :
    m.Fails (Predicate.attr a).expressions (.regex e) := by
  unfold valueEquals at h
  split_ifs at h
  · exact (fails_of_valueMatches htext h).mono (List.subset_append_right _ _)
  · exact (fails_of_accepts hlib htext h).mono (List.subset_append_left _ _)
  · exact (fails_of_accepts hlib htext h).mono (List.subset_append_left _ _)

theorem fails_of_valueHolds {a : AttributeTest} (htext : m.Shows n text) (h : valueHolds a text = .error e) :
    m.Fails (Predicate.attr a).expressions (.regex e) := by
  unfold valueHolds at h
  split at h
  · cases h
  · exact fails_of_valueEquals hlib htext h
  · exact fails_of_valueEquals hlib htext (map_eq_error.mp h)
  · exact fails_of_valueContains htext h

end Texts

/-! ## Predicates and paths -/

section Documented

variable (hlib : Library.Documented)

include hlib

theorem fails_of_attributeHolds {a : AttributeTest} (h : m.attributeHolds a n = .error e) :
    m.Fails (Predicate.attr a).expressions e := by
  unfold attributeHolds at h
  split_ifs at h
  · obtain ⟨e, he, rfl⟩ := mapError_eq_error.mp h
    exact (fails_of_modifiersHold hlib he).mono (List.subset_append_left _ _)
  · rcases bind_eq_error.mp h with h | ⟨_ | v, hv, h⟩
    · exact fails_of_attribute? h
    · cases h
    · obtain ⟨e, he, rfl⟩ := mapError_eq_error.mp h
      exact fails_of_valueHolds hlib (.value hv) he

theorem fails_of_apply {p : Predicate} (h : m.apply p ns = .error e) : m.Fails p.expressions e := by
  induction p generalizing ns with
  | name pattern =>
      obtain ⟨n, -, hn⟩ := exists_of_keepIf_eq_error h
      obtain ⟨e, he, rfl⟩ := mapError_eq_error.mp hn
      exact fails_of_nameHolds hlib he
  | flag word =>
      obtain ⟨n, -, hn⟩ := exists_of_keepIf_eq_error h
      cases hn
  | attr a =>
      obtain ⟨n, -, hn⟩ := exists_of_keepIf_eq_error h
      exact fails_of_attributeHolds hlib hn
  -- A position picks from the candidates and is not tested, which would fail.
  | position p => cases h
  | not p ih => exact ih (bind_ok_eq_error.mp h)
  | and p q ihp ihq =>
      rcases bind_eq_error.mp h with h | ⟨ks, -, h⟩
      · exact (ihp h).mono (List.subset_append_left _ _)
      · exact (ihq h).mono (List.subset_append_right _ _)
  | or p q ihp ihq =>
      rcases bind_eq_error.mp h with h | ⟨ks, -, h⟩
      · exact (ihp h).mono (List.subset_append_left _ _)
      · exact (ihq (bind_ok_eq_error.mp h)).mono (List.subset_append_right _ _)

theorem fails_of_step {s : Step} (h : m.step ns s = .error e) : m.Fails s.expressions e :=
  cause_of_foldlM (fun _ hp _ _ h => (fails_of_apply hlib h).mono fun _ hr => List.mem_flatMap_of_mem hp hr) h

theorem fails_of_steps {ss : List Step} (h : ss.foldlM m.step ns = .error e) :
    m.Fails (ss.flatMap Step.expressions) e :=
  cause_of_foldlM (fun _ hs _ _ h => (fails_of_step hlib h).mono fun _ hr => List.mem_flatMap_of_mem hs hr) h

end Documented

/-! ## Success -/

/-- Each search for one of the expressions in a text of a node comes to an end. -/
def Finishes (m : Semantics t) (rs : List Regex) : Prop :=
  ∀ r ∈ rs, ∀ (n : t.Node) (text : Text), m.Shows n text → ∃ found, Library.search r text = .ok found

/-- The provider, if there is one, fails on no node, and the library does what is documented and gives up no search for
the expressions. -/
structure IsTotal (m : Semantics t) (rs : List Regex) : Prop where
  provider : ∀ ask ∈ m.provider, ∀ n, ∃ info, ask n = .ok info
  library : Library.Documented
  finishes : m.Finishes rs

theorem Finishes.mono {rs' : List Regex} (h : m.Finishes rs') (hrs : rs ⊆ rs') : m.Finishes rs :=
  fun r hr => h r (hrs hr)

/-- Where no search is given up, only the provider can fail. -/
theorem Finishes.throws (hm : m.Finishes rs) (h : m.Fails rs e) :
    ∃ ask ∈ m.provider, ∃ n message, ask n = .error message ∧ e = .provider message := by
  cases h with
  | provider hask hn => exact ⟨_, hask, _, _, hn, rfl⟩
  | givenUp hr hshows hsearch =>
      obtain ⟨found, hfound⟩ := hm _ hr _ _ hshows
      cases hsearch.symm.trans hfound

theorem IsTotal.mono {rs' : List Regex} (hm : m.IsTotal rs') (hrs : rs ⊆ rs') : m.IsTotal rs :=
  ⟨hm.provider, hm.library, hm.finishes.mono hrs⟩

theorem IsTotal.not_fails (hm : m.IsTotal rs) : ¬ m.Fails rs e := by
  intro h
  obtain ⟨ask, hask, n, message, hn, -⟩ := hm.finishes.throws h
  obtain ⟨info, hinfo⟩ := hm.provider ask hask n
  cases hn.symm.trans hinfo

theorem IsTotal.steps {ss : List Step} (hm : m.IsTotal (ss.flatMap Step.expressions)) (ns : List t.Node) :
    ∃ ms, ss.foldlM m.step ns = .ok ms := by
  cases h : ss.foldlM m.step ns with
  | ok ms => exact ⟨ms, rfl⟩
  | error e => exact absurd (fails_of_steps hm.library h) hm.not_fails

end Semantics

open scoped Regex.Engine

/-- The matcher gives up no search, so only the provider matters. -/
theorem Semantics.isTotal_of_provider {t : Tree} {m : Semantics t}
    (hm : ∀ ask ∈ m.provider, ∀ n, ∃ info, ask n = .ok info) (rs : List Regex) : m.IsTotal rs :=
  ⟨hm, Regex.Engine.documented, fun _ _ _ _ _ => ⟨_, rfl⟩⟩

end TreeQuery
