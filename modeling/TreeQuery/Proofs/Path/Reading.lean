import TreeQuery.Proofs.Path.Grammar
import TreeQuery.Proofs.Result
import Mathlib.Tactic.SplitIfs

/-!
# What the reader reads is derived

Whenever a reader succeeds, the tokens that it used are derived by the grammar and denote what it returned.
The readers call one another, and so do the lemmas about them, with the same measure.

* `expression_of_disjunction`: expressions;
* `steps_of_steps`: the steps of a path;
* `whole_of_path`: whole paths, which are only read where the text can be cut to its end.
-/

namespace TreeQuery.Reader

set_option autoImplicit false

open Grammar

variable {g : Reader}

/-- The tokens of a list of lexemes. -/
abbrev tokens (ls : List Lexeme) : List Token := ls.map Lexeme.token

theorem tokens_append (ls ms : List Lexeme) : tokens (ls ++ ms) = tokens ls ++ tokens ms := List.map_append

theorem head?_tokens_take {t : Lexeme} {r : List Lexeme} {n : Nat} (h : tokens ((t :: r).take n) ≠ []) :
    (tokens ((t :: r).take n)).head? = some t.token := by
  cases n with
  | zero => exact absurd rfl h
  | succ n => rfl

theorem drop_of_getElem? {ts : List Lexeme} {u : Lexeme} {k : Nat} (h : ts[k]? = some u) :
    ts.drop k = u :: ts.drop (k + 1) := by
  rw [List.drop_eq_getElem?_toList_append, h]
  rfl

theorem cons_of_head?_any {ts : List Lexeme} {t : Token} (h : ts.head?.any (·.token == t) = true) :
    ∃ u r, ts = u :: r ∧ u.token = t := by
  cases ts with
  | nil => cases h
  | cons u r => exact ⟨u, r, rfl, by simpa using h⟩

/-! ## Numbers, values and signs -/

theorem number_eq_ok {digits : Text} {pos n : Nat} (h : number digits pos = .ok n) :
    Fits digits ∧ n = digits.numeral := by
  unfold number at h
  split at h
  · exact ⟨by assumption, (Except.ok.inj h).symm⟩
  · cases h

theorem closeParen_eq_ok {ts : List Lexeme} (h : g.closeParen ts = .ok ()) :
    ∃ pos r, ts = ⟨.closeParen, pos⟩ :: r := by
  unfold closeParen at h
  split at h
  · cases h
  · exact ⟨_, _, rfl⟩
  · cases h

theorem value_eq_ok {ts : List Lexeme} {v : Text} (h : g.value ts = .ok v) :
    ∃ l r, ts = l :: r ∧ Value l.token v := by
  unfold value at h
  split at h
  · cases h
  · exact ⟨_, _, rfl, Except.ok.inj h ▸ .string _⟩
  · exact ⟨_, _, rfl, Except.ok.inj h ▸ .word _⟩
  · exact ⟨_, _, rfl, Except.ok.inj h ▸ .number _⟩
  · exact ⟨_, _, rfl, Except.ok.inj h ▸ .star⟩
  · cases h

theorem sign_of_comparison? {t : Token} {c : Comparison} (h : comparison? t = some c) : Sign t c := by
  unfold comparison? at h
  split at h
  · exact Option.some.inj h ▸ .equal
  · exact Option.some.inj h ▸ .notEqual
  · exact Option.some.inj h ▸ .contains
  · cases h

/-! ## Tests and separators -/

theorem ending_of_look {u : Unit} (h : g.look [] = .ok u) : ∃ pos, g.ending = .done pos := by
  unfold look at h
  cases he : g.ending with
  | done pos => exact ⟨pos, rfl⟩
  | failed e => simp [he] at h

theorem checkTest_eq_ok {word : Text} {pos : Nat} {u : Unit} (h : checkTest word pos = .ok u) :
    ¬ Wildcard.occursIn word := by
  unfold checkTest at h
  split_ifs at h with hw
  exact hw

theorem test_of_testAfter {axis : Axis} {t : Lexeme} {test : Text} (h : testAfter axis t = .ok test) :
    Test t.token test := by
  unfold testAfter at h
  split at h
  · rename_i ht
    cases h
    exact ht ▸ .star
  · rename_i word ht
    obtain ⟨_, hword, rfl⟩ := map_eq_ok.mp h
    exact ht ▸ .word word (checkTest_eq_ok hword)
  · cases h

theorem name_of_ofName? {word : Text} {axis : Axis} (h : Axis.ofName? word = some axis) : axis.name = word := by
  simpa using List.find?_some h

theorem separator_of_separator? {t : Token} {deep : Bool} (h : separator? t = some deep) :
    Separator t deep := by
  unfold separator? at h
  split at h
  · exact Option.some.inj h ▸ .slash
  · exact Option.some.inj h ▸ .doubleSlash
  · cases h

variable [Regex.Library]

/-! ## Attributes -/

/-- The tests come in the order of the reader: names, then known attributes, then regular expressions. -/
theorem compared_of_attributeTest {word : Text} {pos : Nat} {c : Comparison} {v : Text} {p : Predicate}
    (hc : c ≠ .present) (h : g.attributeTest word pos c v = .ok p) : Compared g.strict word c v p := by
  unfold attributeTest at h
  dsimp only at h
  split_ifs at h with hname hother hknown hmatches
  · obtain ⟨hname, rfl⟩ := hname
    exact Except.ok.inj h ▸ .name v hname
  · obtain ⟨hother, rfl⟩ := hother
    exact Except.ok.inj h ▸ .notName v hother
  · split at h
    · exact Except.ok.inj h ▸ .regex c v _ hmatches (by assumption)
    · cases h
  · refine Except.ok.inj h ▸ .plain c v (fun hw => ?_) hmatches (fun hs => ?_)
    · cases c with
      | present => exact absurd rfl hc
      | equal => exact absurd ⟨hw, rfl⟩ hname
      | notEqual => exact absurd ⟨hw, rfl⟩ hother
      | contains => rfl
    · exact Decidable.byContradiction fun hn => hknown ⟨hs, hn⟩

theorem expression_of_loneAttribute (strict : Bool) (word : Text) :
    Expression strict .primary [.atSign, .ident word] (loneAttribute word) := by
  unfold loneAttribute
  split
  · exact .present word (by assumption)
  · exact .flag word (by assumption)

theorem expression_of_loneWord (strict : Bool) (word : Text) :
    Expression strict .primary [.ident word] (loneWord word) := by
  unfold loneWord
  split
  · exact .flagWord word (by assumption)
  · exact .word word (by assumption)

theorem expression_of_afterAt {pos n : Nat} {ts : List Lexeme} {p : Predicate}
    (h : g.afterAt pos ts = .ok (p, n)) : Expression g.strict .primary (.atSign :: tokens (ts.take n)) p := by
  unfold afterAt at h
  split at h
  · cases h
  · rename_i word wordPos r
    rw [bind_eq_ok] at h
    obtain ⟨_, -, h⟩ := h
    split at h
    · cases h
      exact expression_of_loneAttribute g.strict word
    · rename_i c hc
      obtain ⟨sign, hsign, hc⟩ := Option.bind_eq_some_iff.mp hc
      obtain ⟨r, rfl⟩ := List.head?_eq_some_iff.mp hsign
      rw [bind_eq_ok] at h
      obtain ⟨v, hv, h⟩ := h
      obtain ⟨value, r, rfl, hvalue⟩ := value_eq_ok hv
      rw [bind_eq_ok] at h
      obtain ⟨q, hq, h⟩ := h
      cases h
      have hs := sign_of_comparison? hc
      exact .compared word hs hvalue (compared_of_attributeTest hs.ne_present hq)
  · cases h

theorem expression_of_fromLast {n : Nat} {ts : List Lexeme} {p : Predicate} (h : g.fromLast ts = .ok (p, n)) :
    Expression g.strict .primary
      (.ident "last" :: .openParen :: .closeParen :: tokens (ts.take n)) p := by
  unfold fromLast at h
  split at h
  · split at h
    · rw [bind_eq_ok] at h
      obtain ⟨k, hk, h⟩ := h
      obtain ⟨hfits, rfl⟩ := number_eq_ok hk
      cases h
      exact .lastBut _ hfits
    · cases h
    · cases h
  · rw [bind_eq_ok] at h
    obtain ⟨_, -, h⟩ := h
    cases h
    exact .last

/-! ## Expressions -/

mutual

theorem expression_of_disjunction {ts : List Lexeme} {p : Predicate} {n : Nat}
    (h : g.disjunction ts = .ok (p, n)) : Expression g.strict .disjunction (tokens (ts.take n)) p := by
  rw [disjunction, bind_eq_ok] at h
  obtain ⟨⟨q, k⟩, hq, h⟩ := h
  rw [bind_eq_ok] at h
  obtain ⟨⟨r, m⟩, hr, h⟩ := h
  cases h
  rw [List.take_add, tokens_append]
  exact expression_of_moreDisjuncts (.conjunction (expression_of_conjunction hq)) hr
termination_by 6 * ts.length + 5

theorem expression_of_moreDisjuncts {us : List Token} {p q : Predicate} {ts : List Lexeme} {n : Nat}
    (hp : Expression g.strict .disjunction us p) (h : g.moreDisjuncts p ts = .ok (q, n)) :
    Expression g.strict .disjunction (us ++ tokens (ts.take n)) q := by
  rw [moreDisjuncts.eq_def] at h
  split at h
  · rw [bind_eq_ok] at h
    obtain ⟨_, -, h⟩ := h
    cases h
    simpa using hp
  · rename_i t r
    split_ifs at h with hor
    · rw [bind_eq_ok] at h
      obtain ⟨⟨q', k⟩, hq, h⟩ := h
      rw [bind_eq_ok] at h
      obtain ⟨⟨q'', m⟩, hm, h⟩ := h
      cases h
      have hor' := hp.or (expression_of_conjunction hq)
      have hrest := expression_of_moreDisjuncts hor' hm
      simpa [List.take_add, hor] using hrest
    · cases h
      simpa using hp
termination_by 6 * ts.length + 4

theorem expression_of_conjunction {ts : List Lexeme} {p : Predicate} {n : Nat}
    (h : g.conjunction ts = .ok (p, n)) : Expression g.strict .conjunction (tokens (ts.take n)) p := by
  rw [conjunction, bind_eq_ok] at h
  obtain ⟨⟨q, k⟩, hq, h⟩ := h
  rw [bind_eq_ok] at h
  obtain ⟨⟨r, m⟩, hr, h⟩ := h
  cases h
  rw [List.take_add, tokens_append]
  exact expression_of_moreConjuncts (.unary (expression_of_unary hq)) hr
termination_by 6 * ts.length + 3

theorem expression_of_moreConjuncts {us : List Token} {p q : Predicate} {ts : List Lexeme} {n : Nat}
    (hp : Expression g.strict .conjunction us p) (h : g.moreConjuncts p ts = .ok (q, n)) :
    Expression g.strict .conjunction (us ++ tokens (ts.take n)) q := by
  rw [moreConjuncts.eq_def] at h
  split at h
  · rw [bind_eq_ok] at h
    obtain ⟨_, -, h⟩ := h
    cases h
    simpa using hp
  · rename_i t r
    split_ifs at h with hand
    · rw [bind_eq_ok] at h
      obtain ⟨⟨q', k⟩, hq, h⟩ := h
      rw [bind_eq_ok] at h
      obtain ⟨⟨q'', m⟩, hm, h⟩ := h
      cases h
      have hand' := hp.and (expression_of_unary hq)
      have hrest := expression_of_moreConjuncts hand' hm
      simpa [List.take_add, hand] using hrest
    · cases h
      simpa using hp
termination_by 6 * ts.length + 2

theorem expression_of_unary {ts : List Lexeme} {p : Predicate} {n : Nat} (h : g.unary ts = .ok (p, n)) :
    Expression g.strict .unary (tokens (ts.take n)) p := by
  rw [unary.eq_def] at h
  split at h
  · rw [primary] at h
    cases h
  · rename_i t r
    split_ifs at h with hnot
    · split at h
      · cases h
      · rename_i u r'
        split at h
        · rename_i hu
          rw [bind_eq_ok] at h
          obtain ⟨⟨q, k⟩, hq, h⟩ := h
          rw [bind_eq_ok] at h
          obtain ⟨_, hclose, h⟩ := h
          cases h
          obtain ⟨pos, rest, hrest⟩ := closeParen_eq_ok hclose
          have hgroup := Expression.notGroup (expression_of_disjunction hq)
          simpa [List.take_add, hnot, hu, hrest] using hgroup
        · cases h
        · cases h
        · rename_i hu _ _
          rw [bind_eq_ok] at h
          obtain ⟨⟨q, k⟩, hq, h⟩ := h
          cases h
          have hprimary := expression_of_primary hq
          have hnot' := hprimary.not (by rwa [head?_tokens_take hprimary.ne_nil, ne_eq, Option.some_inj])
          simpa [hnot] using hnot'
    · have hprimary := expression_of_primary h
      exact hprimary.primary (by rwa [head?_tokens_take hprimary.ne_nil, ne_eq, Option.some_inj])
termination_by 6 * ts.length + 1

theorem expression_of_primary {ts : List Lexeme} {p : Predicate} {n : Nat} (h : g.primary ts = .ok (p, n)) :
    Expression g.strict .primary (tokens (ts.take n)) p := by
  rw [primary.eq_def] at h
  split at h
  · cases h
  · rename_i t r
    split at h
    · rename_i digits ht
      rw [bind_eq_ok] at h
      obtain ⟨k, hk, h⟩ := h
      obtain ⟨hfits, rfl⟩ := number_eq_ok hk
      cases h
      simpa [ht] using Expression.position digits hfits
    · rename_i word ht
      split_ifs at h with hlast hopen
      · rw [bind_eq_ok] at h
        obtain ⟨_, -, h⟩ := h
        rw [bind_eq_ok] at h
        obtain ⟨_, hclose, h⟩ := h
        rw [bind_eq_ok] at h
        obtain ⟨⟨q, k⟩, hq, h⟩ := h
        cases h
        obtain ⟨u, r, rfl, hu⟩ := cons_of_head?_any hopen
        obtain ⟨pos, r, rfl⟩ := closeParen_eq_ok hclose
        simpa [ht, hlast, hu] using expression_of_fromLast hq
      · rw [bind_eq_ok] at h
        obtain ⟨_, -, h⟩ := h
        cases h
        simpa [ht] using expression_of_loneWord g.strict word
      · cases h
        simpa [ht] using expression_of_loneWord g.strict word
    · rename_i v ht
      cases h
      simpa [ht] using Expression.string v
    · rename_i ht
      cases h
      simpa [ht] using Expression.star
    · rename_i ht
      rw [bind_eq_ok] at h
      obtain ⟨⟨q, k⟩, hq, h⟩ := h
      cases h
      simpa [ht] using expression_of_afterAt hq
    · rename_i ht
      rw [bind_eq_ok] at h
      obtain ⟨⟨q, k⟩, hq, h⟩ := h
      rw [bind_eq_ok] at h
      obtain ⟨_, hclose, h⟩ := h
      cases h
      obtain ⟨pos, rest, hrest⟩ := closeParen_eq_ok hclose
      simpa [List.take_add, ht, hrest] using (expression_of_disjunction hq).group
    · cases h
termination_by 6 * ts.length

end

/-! ## Steps -/

theorem predicates_of_predicates {ts : List Lexeme} {ps : List Predicate} {n : Nat}
    (h : g.predicates ts = .ok (ps, n)) : Predicates g.strict (tokens (ts.take n)) ps := by
  rw [predicates.eq_def] at h
  split at h
  · rw [bind_eq_ok] at h
    obtain ⟨_, -, h⟩ := h
    cases h
    exact .nil
  · rename_i t r
    split_ifs at h with hopen hempty
    · rw [bind_eq_ok] at h
      obtain ⟨⟨p, k⟩, hp, h⟩ := h
      dsimp only at h
      split at h
      · cases h
      · rename_i u hu
        split_ifs at h with hclose
        · rw [bind_eq_ok] at h
          obtain ⟨⟨qs, m⟩, hqs, h⟩ := h
          cases h
          have hcons := (predicates_of_predicates hqs).cons (expression_of_disjunction hp)
          have htake : (t :: r).take (k + m + 2) = t :: r.take k ++ u :: (r.drop (k + 1)).take m := by
            rw [List.take_succ_cons, Nat.add_assoc, List.take_add, drop_of_getElem? hu]
            rfl
          simpa [htake, hopen, hclose] using hcons
    · cases h
      exact .nil
termination_by ts.length

theorem step_of_stepWith {before ss : List Step} {axis : Axis} {test : Option Text} {ts : List Lexeme} {n : Nat}
    (h : g.stepWith before axis test ts = .ok (ss, n)) :
    ∃ ps, Predicates g.strict (tokens (ts.take n)) ps ∧ ss = before ++ [⟨axis, test, ps⟩] := by
  rw [stepWith, bind_eq_ok] at h
  obtain ⟨⟨ps, k⟩, hps, h⟩ := h
  cases h
  exact ⟨ps, predicates_of_predicates hps, rfl⟩

theorem single_of_step {deep : Bool} {t : Lexeme} {r : List Lexeme} {ss : List Step} {n : Nat}
    (h : g.step deep t r = .ok (ss, n)) :
    Single g.strict deep (t.token :: tokens (r.take n)) ss := by
  unfold step at h
  dsimp only at h
  split at h
  · rename_i ht
    obtain ⟨ps, hps, rfl⟩ := step_of_stepWith h
    exact ht ▸ .dot hps
  · rename_i ht
    obtain ⟨ps, hps, rfl⟩ := step_of_stepWith h
    exact ht ▸ .dotDot hps
  · rename_i ht
    obtain ⟨ps, hps, rfl⟩ := step_of_stepWith h
    exact ht ▸ .bare .star hps
  · rename_i word ht
    rw [bind_eq_ok] at h
    obtain ⟨_, -, h⟩ := h
    by_cases hmark : r.head?.any (·.token == .axisMark) = true
    · rw [if_pos hmark] at h
      obtain ⟨u, r, rfl, hu⟩ := cons_of_head?_any hmark
      split at h
      · cases h
      · cases h
      · rename_i axis v r' haxis hr
        obtain rfl := name_of_ofName? haxis
        obtain rfl : r = v :: r' := hr
        rw [bind_eq_ok] at h
        obtain ⟨test, htest, h⟩ := h
        rw [bind_eq_ok] at h
        obtain ⟨⟨ss, k⟩, hss, h⟩ := h
        cases h
        obtain ⟨ps, hps, rfl⟩ := step_of_stepWith hss
        have hsingle : Single g.strict deep _ _ := .axis axis (test_of_testAfter htest) hps
        rw [← hu] at hsingle
        exact ht ▸ hsingle
    · rw [if_neg hmark, bind_eq_ok] at h
      obtain ⟨_, hword, h⟩ := h
      obtain ⟨ps, hps, rfl⟩ := step_of_stepWith h
      exact ht ▸ .bare (.word word (checkTest_eq_ok hword)) hps
  · cases h

/-! ## Paths -/

/-- Steps are read to the end of the tokens, and only at the end of the text. -/
theorem steps_of_steps {deep : Bool} {ts : List Lexeme} {ss : List Step} (h : g.steps deep ts = .ok ss) :
    Steps g.strict deep (tokens ts) ss ∧ ∃ pos, g.ending = .done pos := by
  rw [steps.eq_def] at h
  split at h
  · cases h
  · rename_i t r
    rw [bind_eq_ok] at h
    obtain ⟨⟨first, n⟩, hfirst, h⟩ := h
    have hsingle := single_of_step hfirst
    dsimp only at h
    split at h
    · rename_i hn
      rw [bind_eq_ok] at h
      obtain ⟨_, hlook, h⟩ := h
      cases h
      rw [List.take_of_length_le (by simpa using hn)] at hsingle
      exact ⟨.one hsingle, ending_of_look hlook⟩
    · rename_i u hu
      split at h
      · cases h
      · rename_i deeper hdeeper
        split_ifs at h with hempty
        rw [bind_eq_ok] at h
        obtain ⟨more, hmore, h⟩ := h
        cases h
        obtain ⟨hmore, hending⟩ := steps_of_steps hmore
        have hr : t :: r = t :: r.take n ++ u :: r.drop (n + 1) := by
          rw [← drop_of_getElem? hu, List.cons_append, List.take_append_drop]
        rw [hr, tokens_append]
        exact ⟨.cons hsingle (separator_of_separator? hdeeper) hmore, hending⟩
termination_by ts.length

theorem whole_of_path {ts : List Lexeme} {absolute : Bool} {ss : List Step}
    (h : g.path ts = .ok (absolute, ss)) :
    Whole g.strict (tokens ts) absolute ss ∧ ∃ pos, g.ending = .done pos := by
  unfold path at h
  split at h
  · cases h
  · rename_i t r
    split at h
    · rw [map_eq_ok] at h
      obtain ⟨ss, hss, h⟩ := h
      cases h
      obtain ⟨hss, hending⟩ := steps_of_steps hss
      exact ⟨.relative hss, hending⟩
    · rename_i hslash
      rw [map_eq_ok] at h
      obtain ⟨_, hlook, h⟩ := h
      cases h
      obtain ⟨t, pos⟩ := t
      cases separator_of_separator? hslash
      exact ⟨.top, ending_of_look hlook⟩
    · cases h
    · rename_i deep _ hdeep _ _
      rw [map_eq_ok] at h
      obtain ⟨ss, hss, h⟩ := h
      cases h
      obtain ⟨hss, hending⟩ := steps_of_steps hss
      exact ⟨.absolute (separator_of_separator? hdeep) hss, hending⟩

end TreeQuery.Reader
