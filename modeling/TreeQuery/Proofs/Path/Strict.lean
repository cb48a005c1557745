import TreeQuery.Proofs.Path.Acceptance

/-!
# Strict reading

A strict reader refuses the comparison of an unknown attribute where it meets it, in the middle of the text. What it
reads is nevertheless what the other reader reads and what then passes one check of the result: an unknown attribute
that is not compared becomes a flag, and equality of names becomes a test of the name, so an unknown attribute can be
left in a path only by a comparison. The derivations of the two grammars are the same up to this check.

* `Predicate.attributeTests`: the tests of attributes anywhere in a predicate;
* `Predicate.OnlyKnown`, `Step.OnlyKnown`: the check;
* `Grammar.Expression.strict_iff`, `Grammar.Whole.strict_iff`: derivations of expressions and of paths;
* `Path.parse_strict_iff`: both ways of reading a text.
-/

namespace TreeQuery

set_option autoImplicit false

/-! ## The check -/

/-- The tests of attributes that occur in a predicate, at any depth. -/
def Predicate.attributeTests : Predicate → List AttributeTest
  | attr a => [a]
  | not p => p.attributeTests
  | and p q | or p q => p.attributeTests ++ q.attributeTests
  | position _ | name _ | flag _ => []

/-- Every attribute that is tested is a known one. -/
def Predicate.OnlyKnown (p : Predicate) : Prop := ∀ a ∈ p.attributeTests, isAttributeWord a.name

def Step.OnlyKnown (s : Step) : Prop := ∀ p ∈ s.predicates, p.OnlyKnown

namespace Predicate

variable {p q : Predicate}

theorem onlyKnown_attr {a : AttributeTest} : (attr a).OnlyKnown ↔ isAttributeWord a.name :=
  List.forall_mem_singleton

theorem onlyKnown_and : (and p q).OnlyKnown ↔ p.OnlyKnown ∧ q.OnlyKnown := List.forall_mem_append

theorem onlyKnown_or : (or p q).OnlyKnown ↔ p.OnlyKnown ∧ q.OnlyKnown := List.forall_mem_append

end Predicate

namespace Grammar

open Predicate

variable [Regex.Library] {ts : List Token}

/-! ## Expressions -/

/-- The value for `matches` is not checked, since that attribute is known. -/
theorem Compared.strict_iff {word v : Text} {c : Comparison} {p : Predicate} :
    Compared true word c v p ↔ Compared false word c v p ∧ p.OnlyKnown := by
  constructor
  · intro h
    cases h with
    | name v hname => exact ⟨.name v hname, nofun⟩
    | notName v hname => exact ⟨.notName v hname, nofun⟩
    | regex c v r hmatches hr =>
        have hknown : isAttributeWord word.lowered := by
          rw [hmatches]
          decide
        exact ⟨.regex c v r hmatches hr, onlyKnown_attr.mpr hknown⟩
    | plain c v hname hmatches hknown => exact ⟨.plain c v hname hmatches nofun, onlyKnown_attr.mpr (hknown rfl)⟩
  · rintro ⟨h, hp⟩
    cases h with
    | name v hname => exact .name v hname
    | notName v hname => exact .notName v hname
    | regex c v r hmatches hr => exact .regex c v r hmatches hr
    | plain c v hname hmatches _ => exact .plain c v hname hmatches fun _ => onlyKnown_attr.mp hp

theorem Expression.of_strict {level : Level} {p : Predicate} (h : Expression true level ts p) :
    Expression false level ts p ∧ p.OnlyKnown := by
  induction h with
  | position digits hfits => exact ⟨.position digits hfits, nofun⟩
  | last => exact ⟨.last, nofun⟩
  | lastBut digits hfits => exact ⟨.lastBut digits hfits, nofun⟩
  | flagWord word hflag => exact ⟨.flagWord word hflag, nofun⟩
  | word word hflag => exact ⟨.word word hflag, nofun⟩
  | string v => exact ⟨.string v, nofun⟩
  | star => exact ⟨.star, nofun⟩
  | present word hknown => exact ⟨.present word hknown, onlyKnown_attr.mpr hknown⟩
  | flag word hunknown => exact ⟨.flag word hunknown, nofun⟩
  | compared word hsign hvalue hp =>
      obtain ⟨hp, hknown⟩ := Compared.strict_iff.mp hp
      exact ⟨.compared word hsign hvalue hp, hknown⟩
  | group _ ih => exact ⟨.group ih.1, ih.2⟩
  | notGroup _ ih => exact ⟨.notGroup ih.1, ih.2⟩
  | not _ hopen ih => exact ⟨.not ih.1 hopen, ih.2⟩
  | primary _ hnot ih => exact ⟨.primary ih.1 hnot, ih.2⟩
  | unary _ ih => exact ⟨.unary ih.1, ih.2⟩
  | and _ _ ihp ihq => exact ⟨.and ihp.1 ihq.1, onlyKnown_and.mpr ⟨ihp.2, ihq.2⟩⟩
  | conjunction _ ih => exact ⟨.conjunction ih.1, ih.2⟩
  | or _ _ ihp ihq => exact ⟨.or ihp.1 ihq.1, onlyKnown_or.mpr ⟨ihp.2, ihq.2⟩⟩

theorem Expression.strict {level : Level} {p : Predicate} (h : Expression false level ts p) (hp : p.OnlyKnown) :
    Expression true level ts p := by
  induction h with
  | position digits hfits => exact .position digits hfits
  | last => exact .last
  | lastBut digits hfits => exact .lastBut digits hfits
  | flagWord word hflag => exact .flagWord word hflag
  | word word hflag => exact .word word hflag
  | string v => exact .string v
  | star => exact .star
  | present word hknown => exact .present word hknown
  | flag word hunknown => exact .flag word hunknown
  | compared word hsign hvalue hcompared =>
      exact .compared word hsign hvalue (Compared.strict_iff.mpr ⟨hcompared, hp⟩)
  | group _ ih => exact .group (ih hp)
  | notGroup _ ih => exact .notGroup (ih hp)
  | not _ hopen ih => exact .not (ih hp) hopen
  | primary _ hnot ih => exact .primary (ih hp) hnot
  | unary _ ih => exact .unary (ih hp)
  | and _ _ ihp ihq =>
      obtain ⟨hp, hq⟩ := onlyKnown_and.mp hp
      exact .and (ihp hp) (ihq hq)
  | conjunction _ ih => exact .conjunction (ih hp)
  | or _ _ ihp ihq =>
      obtain ⟨hp, hq⟩ := onlyKnown_or.mp hp
      exact .or (ihp hp) (ihq hq)

theorem Expression.strict_iff {level : Level} {p : Predicate} :
    Expression true level ts p ↔ Expression false level ts p ∧ p.OnlyKnown :=
  ⟨Expression.of_strict, fun ⟨h, hp⟩ => h.strict hp⟩

/-! ## Steps and paths -/

theorem Predicates.strict_iff {ps : List Predicate} :
    Predicates true ts ps ↔ Predicates false ts ps ∧ ∀ p ∈ ps, p.OnlyKnown := by
  constructor
  · intro h
    induction h with
    | nil => exact ⟨.nil, nofun⟩
    | cons hp _ ih =>
        obtain ⟨hp, hknown⟩ := Expression.strict_iff.mp hp
        exact ⟨.cons hp ih.1, List.forall_mem_cons.mpr ⟨hknown, ih.2⟩⟩
  · rintro ⟨h, hps⟩
    induction h with
    | nil => exact .nil
    | cons hp _ ih =>
        obtain ⟨hknown, hps⟩ := List.forall_mem_cons.mp hps
        exact .cons (Expression.strict_iff.mpr ⟨hp, hknown⟩) (ih hps)

omit [Regex.Library] in
/-- The step that a double slash adds has no predicates. -/
theorem onlyKnown_below {deep : Bool} {s : Step} : (∀ r ∈ below deep ++ [s], r.OnlyKnown) ↔ s.OnlyKnown := by
  rw [List.forall_mem_append, List.forall_mem_singleton]
  refine and_iff_right_of_imp fun _ r hr => ?_
  cases deep with
  | false => cases hr
  | true =>
      obtain rfl := List.mem_singleton.mp hr
      exact nofun

theorem Single.strict_iff {deep : Bool} {ss : List Step} :
    Single true deep ts ss ↔ Single false deep ts ss ∧ ∀ s ∈ ss, s.OnlyKnown := by
  constructor
  · intro h
    cases h with
    | dot hps =>
        obtain ⟨hps, hknown⟩ := Predicates.strict_iff.mp hps
        exact ⟨.dot hps, onlyKnown_below.mpr hknown⟩
    | dotDot hps =>
        obtain ⟨hps, hknown⟩ := Predicates.strict_iff.mp hps
        exact ⟨.dotDot hps, onlyKnown_below.mpr hknown⟩
    | bare htest hps =>
        obtain ⟨hps, hknown⟩ := Predicates.strict_iff.mp hps
        exact ⟨.bare htest hps, List.forall_mem_singleton.mpr hknown⟩
    | axis axis htest hps =>
        obtain ⟨hps, hknown⟩ := Predicates.strict_iff.mp hps
        exact ⟨.axis axis htest hps, onlyKnown_below.mpr hknown⟩
  · rintro ⟨h, hss⟩
    cases h with
    | dot hps => exact .dot (Predicates.strict_iff.mpr ⟨hps, onlyKnown_below.mp hss⟩)
    | dotDot hps => exact .dotDot (Predicates.strict_iff.mpr ⟨hps, onlyKnown_below.mp hss⟩)
    | bare htest hps => exact .bare htest (Predicates.strict_iff.mpr ⟨hps, List.forall_mem_singleton.mp hss⟩)
    | axis axis htest hps => exact .axis axis htest (Predicates.strict_iff.mpr ⟨hps, onlyKnown_below.mp hss⟩)

theorem Steps.strict_iff {deep : Bool} {ss : List Step} :
    Steps true deep ts ss ↔ Steps false deep ts ss ∧ ∀ s ∈ ss, s.OnlyKnown := by
  constructor
  · intro h
    induction h with
    | one hs =>
        obtain ⟨hs, hknown⟩ := Single.strict_iff.mp hs
        exact ⟨.one hs, hknown⟩
    | cons hs hsep _ ih =>
        obtain ⟨hs, hknown⟩ := Single.strict_iff.mp hs
        exact ⟨.cons hs hsep ih.1, List.forall_mem_append.mpr ⟨hknown, ih.2⟩⟩
  · rintro ⟨h, hss⟩
    induction h with
    | one hs => exact .one (Single.strict_iff.mpr ⟨hs, hss⟩)
    | cons hs hsep _ ih =>
        obtain ⟨hknown, hmore⟩ := List.forall_mem_append.mp hss
        exact .cons (Single.strict_iff.mpr ⟨hs, hknown⟩) hsep (ih hmore)

theorem Whole.strict_iff {absolute : Bool} {ss : List Step} :
    Whole true ts absolute ss ↔ Whole false ts absolute ss ∧ ∀ s ∈ ss, s.OnlyKnown := by
  constructor
  · intro h
    cases h with
    | top => exact ⟨.top, nofun⟩
    | relative hss =>
        obtain ⟨hss, hknown⟩ := Steps.strict_iff.mp hss
        exact ⟨.relative hss, hknown⟩
    | absolute hsep hss =>
        obtain ⟨hss, hknown⟩ := Steps.strict_iff.mp hss
        exact ⟨.absolute hsep hss, hknown⟩
  · rintro ⟨h, hknown⟩
    cases h with
    | top => exact .top
    | relative hss => exact .relative (Steps.strict_iff.mpr ⟨hss, hknown⟩)
    | absolute hsep hss => exact .absolute hsep (Steps.strict_iff.mpr ⟨hss, hknown⟩)

end Grammar

namespace Path

variable [Regex.Library]

/-- **A text is read strictly as a path exactly if it is read so without strictness and every test of an attribute in
the path, in any step and under any nesting of `not`, `and` and `or`, is of a known attribute.** -/
theorem parse_strict_iff (input : Text) (p : Path) :
    Path.parse true input = .ok p ↔
      Path.parse false input = .ok p ∧
        ∀ s ∈ p.steps, ∀ q ∈ s.predicates, ∀ a ∈ q.attributeTests, isAttributeWord a.name := by
  constructor
  · intro h
    obtain ⟨htext, ts, hts, hwhole⟩ := whole_of_parse h
    obtain ⟨hwhole, hknown⟩ := Grammar.Whole.strict_iff.mp hwhole
    have hparse := parse_of_whole hts hwhole
    subst htext
    exact ⟨hparse, hknown⟩
  · rintro ⟨h, hknown⟩
    obtain ⟨htext, ts, hts, hwhole⟩ := whole_of_parse h
    have hparse := parse_of_whole hts (Grammar.Whole.strict_iff.mpr ⟨hwhole, hknown⟩)
    subst htext
    exact hparse

end Path

end TreeQuery
