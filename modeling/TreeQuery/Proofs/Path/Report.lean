import TreeQuery.Proofs.Path.Lexing
import TreeQuery.Proofs.Path.Reading
import TreeQuery.Session.Operations

/-!
# Reports on texts that are no paths

A text that is no path is refused with a report that quotes the text and points into it. The readers find fault with a
token that they were given, with the end of the text where a token is missing, or leave it to the place where the text
could not be cut further; and all of these lie inside the text or at its end, because no token takes in more bytes than
there are.

* `Reader.Blames`: the places where an error may show;
* `Reader.blames_of_disjunction`, `Reader.blames_of_steps`, `Reader.blames_of_path`: errors show nowhere else;
* `fitsIn_readToken`, `lexemes_within`: tokens and the end of the tokens lie inside the text;
* `Lexer.push?_next`: a token that was just read can be held back;
* `PointsInto`: the form of a report;
* `Path.parse_reports`: a text is read, or there is such a report on it.
-/

namespace TreeQuery

set_option autoImplicit false

namespace Reader

/-! ## Where errors show -/

/-- The error shows at one of the tokens, at the end of the text, or where the text cannot be cut further. -/
def Blames (g : Reader) (ts : List Lexeme) (e : SyntaxError) : Prop :=
  (∃ t ∈ ts, e.pos = t.pos) ∨ g.ending = .done e.pos ∨ g.ending = .failed e

variable {g : Reader} {ts us r : List Lexeme} {t : Lexeme} {e : SyntaxError}

theorem Blames.mono (h : g.Blames ts e) (hsub : ts ⊆ us) : g.Blames us e :=
  h.imp_left fun ⟨t, ht, he⟩ => ⟨t, hsub ht, he⟩

theorem Blames.cons (h : g.Blames r e) : g.Blames (t :: r) e := h.mono (List.subset_cons_self t r)

theorem Blames.of_drop {n : Nat} (h : g.Blames (ts.drop n) e) : g.Blames ts e := h.mono (List.drop_subset n ts)

theorem Blames.of_tail (h : g.Blames ts.tail e) : g.Blames ts e := h.mono (List.tail_sublist ts).subset

theorem blames_head (cause : Cause) : g.Blames (t :: r) ⟨cause, t.pos⟩ := .inl ⟨t, List.mem_cons_self, rfl⟩

theorem blames_atEnd (cause : Cause) : g.Blames ts (g.atEnd cause) := by
  unfold atEnd
  split
  · rename_i pos hpos
    exact .inr (.inl hpos)
  · rename_i f hf
    exact .inr (.inr hf)

theorem blames_orFailed (cause : Cause) : g.Blames (t :: r) (g.orFailed ⟨cause, t.pos⟩) := by
  unfold orFailed
  split
  · exact blames_head cause
  · rename_i f hf
    exact .inr (.inr hf)

theorem blames_of_look (h : g.look us = .error e) : g.Blames ts e := by
  unfold look at h
  split at h
  · rename_i f hf
    obtain rfl := Except.error.inj h
    exact .inr (.inr hf)
  · cases h

/-! ## Values and attributes -/

theorem blames_of_number {digits : Text} (h : number digits t.pos = .error e) : g.Blames (t :: r) e := by
  unfold number at h
  split_ifs at h
  obtain rfl := Except.error.inj h
  exact blames_head _

theorem blames_of_closeParen (h : g.closeParen ts = .error e) : g.Blames ts e := by
  unfold closeParen at h
  split at h
  · exact Except.error.inj h ▸ blames_atEnd _
  · cases h
  · exact Except.error.inj h ▸ blames_head _

theorem blames_of_value (h : g.value ts = .error e) : g.Blames ts e := by
  unfold value at h
  split at h
  · exact Except.error.inj h ▸ blames_atEnd _
  · cases h
  · cases h
  · cases h
  · cases h
  · exact Except.error.inj h ▸ blames_head _

theorem blames_of_fromLast (h : g.fromLast ts = .error e) : g.Blames ts e := by
  unfold fromLast at h
  split at h
  · refine Blames.cons ?_
    split at h
    · rename_i digits pos r
      rcases bind_eq_error.mp h with h | ⟨n, -, h⟩
      · exact blames_of_number (t := ⟨.number digits, pos⟩) h
      · cases h
    · exact Except.error.inj h ▸ blames_head _
    · exact Except.error.inj h ▸ blames_atEnd _
  · rcases bind_eq_error.mp h with h | ⟨_, -, h⟩
    · exact blames_of_look h
    · cases h

theorem blames_of_checkTest {word : Text} (h : checkTest word t.pos = .error e) : g.Blames (t :: r) e := by
  unfold checkTest at h
  split_ifs at h
  exact Except.error.inj h ▸ blames_head _

theorem blames_of_testAfter {axis : Axis} (h : testAfter axis t = .error e) : g.Blames (t :: r) e := by
  unfold testAfter at h
  split at h
  · cases h
  · exact blames_of_checkTest (map_eq_error.mp h)
  · exact Except.error.inj h ▸ blames_head _

variable [Regex.Library]

theorem blames_of_attributeTest {word v : Text} {c : Comparison} (h : g.attributeTest word t.pos c v = .error e) :
    g.Blames (t :: r) e := by
  unfold attributeTest at h
  dsimp only at h
  split_ifs at h
  · exact Except.error.inj h ▸ blames_head _
  · split at h
    · cases h
    · exact Except.error.inj h ▸ blames_head _

theorem blames_of_afterAt (h : g.afterAt t.pos r = .error e) : g.Blames (t :: r) e := by
  unfold afterAt at h
  split at h
  · exact Except.error.inj h ▸ blames_orFailed _
  · rename_i word wordPos r
    rcases bind_eq_error.mp h with h | ⟨_, -, h⟩
    · exact blames_of_look h
    split at h
    · cases h
    · rcases bind_eq_error.mp h with h | ⟨v, -, h⟩
      · exact (blames_of_value h).of_tail.cons.cons
      rcases bind_eq_error.mp h with h | ⟨p, -, h⟩
      · exact (blames_of_attributeTest (t := ⟨.ident word, wordPos⟩) h).cons
      · cases h
  · exact Except.error.inj h ▸ blames_head _

/-! ## Expressions -/

mutual

theorem blames_of_disjunction {ts : List Lexeme} (h : g.disjunction ts = .error e) : g.Blames ts e := by
  rw [disjunction, bind_eq_error] at h
  rcases h with h | ⟨⟨p, n⟩, -, h⟩
  · exact blames_of_conjunction h
  rcases bind_eq_error.mp h with h | ⟨⟨q, m⟩, -, h⟩
  · exact (blames_of_moreDisjuncts h).of_drop
  · cases h
termination_by 6 * ts.length + 5

theorem blames_of_moreDisjuncts {p : Predicate} {ts : List Lexeme} (h : g.moreDisjuncts p ts = .error e) :
    g.Blames ts e := by
  rw [moreDisjuncts.eq_def] at h
  split at h
  · rcases bind_eq_error.mp h with h | ⟨_, -, h⟩
    · exact blames_of_look h
    · cases h
  · rename_i t r
    split_ifs at h
    refine Blames.cons ?_
    rcases bind_eq_error.mp h with h | ⟨⟨q, n⟩, -, h⟩
    · exact blames_of_conjunction h
    rcases bind_eq_error.mp h with h | ⟨⟨q, m⟩, -, h⟩
    · exact (blames_of_moreDisjuncts h).of_drop
    · cases h
termination_by 6 * ts.length + 4

theorem blames_of_conjunction {ts : List Lexeme} (h : g.conjunction ts = .error e) : g.Blames ts e := by
  rw [conjunction, bind_eq_error] at h
  rcases h with h | ⟨⟨p, n⟩, -, h⟩
  · exact blames_of_unary h
  rcases bind_eq_error.mp h with h | ⟨⟨q, m⟩, -, h⟩
  · exact (blames_of_moreConjuncts h).of_drop
  · cases h
termination_by 6 * ts.length + 3

theorem blames_of_moreConjuncts {p : Predicate} {ts : List Lexeme} (h : g.moreConjuncts p ts = .error e) :
    g.Blames ts e := by
  rw [moreConjuncts.eq_def] at h
  split at h
  · rcases bind_eq_error.mp h with h | ⟨_, -, h⟩
    · exact blames_of_look h
    · cases h
  · rename_i t r
    split_ifs at h
    refine Blames.cons ?_
    rcases bind_eq_error.mp h with h | ⟨⟨q, n⟩, -, h⟩
    · exact blames_of_unary h
    rcases bind_eq_error.mp h with h | ⟨⟨q, m⟩, -, h⟩
    · exact (blames_of_moreConjuncts h).of_drop
    · cases h
termination_by 6 * ts.length + 2

theorem blames_of_unary {ts : List Lexeme} (h : g.unary ts = .error e) : g.Blames ts e := by
  rw [unary.eq_def] at h
  split at h
  · exact blames_of_primary h
  · rename_i t r
    split_ifs at h
    · split at h
      · exact Except.error.inj h ▸ blames_orFailed _
      · rename_i u r'
        split at h
        · rcases bind_eq_error.mp h with h | ⟨⟨p, n⟩, -, h⟩
          · exact (blames_of_disjunction h).cons.cons
          rcases bind_eq_error.mp h with h | ⟨_, -, h⟩
          · exact (blames_of_closeParen h).of_drop.cons.cons
          · cases h
        · exact Except.error.inj h ▸ blames_head _
        · exact Except.error.inj h ▸ blames_head _
        · rcases bind_eq_error.mp h with h | ⟨⟨p, n⟩, -, h⟩
          · exact (blames_of_primary h).cons
          · cases h
    · exact blames_of_primary h
termination_by 6 * ts.length + 1

theorem blames_of_primary {ts : List Lexeme} (h : g.primary ts = .error e) : g.Blames ts e := by
  rw [primary.eq_def] at h
  split at h
  · exact Except.error.inj h ▸ blames_atEnd _
  · rename_i t r
    split at h
    · rcases bind_eq_error.mp h with h | ⟨n, -, h⟩
      · exact blames_of_number h
      · cases h
    · split_ifs at h
      · rcases bind_eq_error.mp h with h | ⟨_, -, h⟩
        · exact blames_of_look h
        rcases bind_eq_error.mp h with h | ⟨_, -, h⟩
        · exact (blames_of_closeParen h).of_tail.cons
        rcases bind_eq_error.mp h with h | ⟨⟨p, n⟩, -, h⟩
        · exact (blames_of_fromLast h).of_drop.cons
        · cases h
      · rcases bind_eq_error.mp h with h | ⟨_, -, h⟩
        · exact blames_of_look h
        · cases h
    · cases h
    · cases h
    · rcases bind_eq_error.mp h with h | ⟨⟨p, n⟩, -, h⟩
      · exact blames_of_afterAt h
      · cases h
    · rcases bind_eq_error.mp h with h | ⟨⟨p, n⟩, -, h⟩
      · exact (blames_of_disjunction h).cons
      rcases bind_eq_error.mp h with h | ⟨_, -, h⟩
      · exact (blames_of_closeParen h).of_drop.cons
      · cases h
    · exact Except.error.inj h ▸ blames_head _
termination_by 6 * ts.length

end

/-! ## Steps -/

theorem blames_of_predicates {ts : List Lexeme} (h : g.predicates ts = .error e) : g.Blames ts e := by
  rw [predicates.eq_def] at h
  split at h
  · rcases bind_eq_error.mp h with h | ⟨_, -, h⟩
    · exact blames_of_look h
    · cases h
  · rename_i t r
    split_ifs at h
    · exact Except.error.inj h ▸ blames_head _
    · rcases bind_eq_error.mp h with h | ⟨⟨p, n⟩, -, h⟩
      · exact (blames_of_disjunction h).cons
      dsimp only at h
      split at h
      · exact Except.error.inj h ▸ blames_orFailed _
      · rename_i u hu
        split_ifs at h
        · rcases bind_eq_error.mp h with h | ⟨⟨ps, m⟩, -, h⟩
          · exact (blames_of_predicates h).of_drop.cons
          · cases h
        · exact Except.error.inj h ▸ .inl ⟨u, List.mem_cons_of_mem t (List.mem_of_getElem? hu), rfl⟩
termination_by ts.length

theorem blames_of_stepWith {before : List Step} {axis : Axis} {test : Option Text}
    (h : g.stepWith before axis test ts = .error e) : g.Blames ts e := by
  rw [stepWith, bind_eq_error] at h
  rcases h with h | ⟨⟨ps, n⟩, -, h⟩
  · exact blames_of_predicates h
  · cases h

theorem blames_of_step {deep : Bool} (h : g.step deep t r = .error e) : g.Blames (t :: r) e := by
  unfold step at h
  dsimp only at h
  split at h
  · exact (blames_of_stepWith h).cons
  · exact (blames_of_stepWith h).cons
  · exact (blames_of_stepWith h).cons
  · rw [bind_eq_error] at h
    rcases h with h | ⟨_, -, h⟩
    · exact blames_of_look h
    by_cases hmark : r.head?.any (·.token == .axisMark) = true
    · rw [if_pos hmark] at h
      obtain ⟨mark, r, rfl, -⟩ := cons_of_head?_any hmark
      split at h
      · exact Except.error.inj h ▸ blames_head _
      · exact Except.error.inj h ▸ blames_atEnd _
      · rename_i axis u r' haxis hr
        obtain rfl : r = u :: r' := hr
        refine Blames.cons (Blames.cons ?_)
        rcases bind_eq_error.mp h with h | ⟨test, -, h⟩
        · exact blames_of_testAfter h
        rcases bind_eq_error.mp h with h | ⟨⟨ss, n⟩, -, h⟩
        · exact (blames_of_stepWith h).cons
        · cases h
    · rw [if_neg hmark, bind_eq_error] at h
      rcases h with h | ⟨_, -, h⟩
      · exact blames_of_checkTest h
      · exact (blames_of_stepWith h).cons
  · exact Except.error.inj h ▸ blames_head _

theorem blames_of_steps {deep : Bool} {ts : List Lexeme} (h : g.steps deep ts = .error e) : g.Blames ts e := by
  rw [steps.eq_def] at h
  split at h
  · exact Except.error.inj h ▸ blames_atEnd _
  · rename_i t r
    rcases bind_eq_error.mp h with h | ⟨⟨ss, n⟩, -, h⟩
    · exact blames_of_step h
    dsimp only at h
    split at h
    · rcases bind_eq_error.mp h with h | ⟨_, -, h⟩
      · exact blames_of_look h
      · cases h
    · rename_i u hu
      have hafter : u :: r.drop (n + 1) ⊆ t :: r := by
        rw [← drop_of_getElem? hu]
        exact fun v hv => List.mem_cons_of_mem t (List.mem_of_mem_drop hv)
      refine Blames.mono ?_ hafter
      split at h
      · exact Except.error.inj h ▸ blames_head _
      · split_ifs at h
        · exact Except.error.inj h ▸ blames_orFailed _
        · rcases bind_eq_error.mp h with h | ⟨more, -, h⟩
          · exact (blames_of_steps h).cons
          · cases h
termination_by ts.length

theorem blames_of_path (h : g.path ts = .error e) : g.Blames ts e := by
  unfold path at h
  split at h
  · exact Except.error.inj h ▸ blames_atEnd _
  · split at h
    · exact blames_of_steps (map_eq_error.mp h)
    · exact blames_of_look (map_eq_error.mp h)
    · exact Except.error.inj h ▸ blames_orFailed _
    · exact (blames_of_steps (map_eq_error.mp h)).cons

end Reader

/-! ## Tokens inside the text -/

/-- A token that was found takes in no more bytes than there are. -/
def FitsIn (r : Text) (found : Except (Cause × Nat) (Token × Nat)) : Prop :=
  ∀ token n, found = .ok (token, n) → n ≤ r.length

theorem fitsIn_readToken (b : UInt8) (r : Text) : FitsIn r (readToken b r) := by
  intro token n h
  have hfound := found_readToken b r
  rw [h] at hfound
  cases hfound with
  | single => exact Nat.zero_le _
  | pair hc =>
      obtain ⟨r, rfl⟩ := List.head?_eq_some_iff.mp hc
      exact Nat.succ_le_succ (Nat.zero_le _)
  | string _ hread =>
      obtain ⟨body, rest, rfl, rfl, -⟩ := betweenQuotes_of_readString? hread
      simp
  | number => exact (List.takeWhile_sublist _).length_le
  | star => exact (readIdent_isPrefix r).length_le
  | word => exact (readIdent_isPrefix r).length_le

/-- Where the tokens end. -/
def Ending.pos : Ending → Nat
  | done pos => pos
  | failed e => e.pos

/-- Tokens start before the end of the text, and they end there or before. -/
theorem lexemes_within (pos : Nat) (t : Text) :
    (∀ l ∈ (lexemes pos t).1, l.pos < pos + t.length) ∧ (lexemes pos t).2.pos ≤ pos + t.length := by
  fun_induction lexemes pos t with
  | case1 pos => exact ⟨List.forall_mem_nil _, Nat.le_refl pos⟩
  | case2 pos b r hspace ih =>
      have hlength : pos + (b :: r).length = pos + 1 + r.length := by
        rw [List.length_cons]
        omega
      rwa [hlength]
  | case3 pos b r hspace cause n hread => exact ⟨List.forall_mem_nil _, Nat.le_add_right pos _⟩
  | case4 pos b r hspace token n hread ls ending hmore ih =>
      have hfits := fitsIn_readToken b r token n hread
      have hlength : pos + 1 + n + (r.drop n).length = pos + (b :: r).length := by
        rw [List.length_drop, List.length_cons]
        omega
      rw [hmore, hlength] at ih
      refine ⟨List.forall_mem_cons.mpr ⟨?_, ih.1⟩, ih.2⟩
      exact Nat.lt_add_of_pos_right (Nat.zero_lt_succ _)

namespace Lexer

/-- What has been read is not held any more. -/
theorem held_next (l : Lexer) : l.next.2.held = none := by
  unfold next
  cases l.held with
  | none => rfl
  | some lexeme => rfl

theorem push?_next (l : Lexer) (lexeme : Lexeme) :
    l.next.2.push? (some lexeme) = some { l.next.2 with held := some lexeme } := by
  simp [push?, held_next]

end Lexer

/-! ## Reports -/

/-- The report ends with the text and, on a line of its own, a caret below a byte of the text or below its end; both are
set in by two blanks. -/
def PointsInto (input report : Text) : Prop :=
  ∃ (why : Text) (k : Nat), k ≤ input.length ∧
    report = why ++ (" in path:\n  " : Text) ++ input ++ ("\n  " : Text) ++ List.replicate k 0x20 ++ ("^" : Text)

theorem SyntaxError.pointsInto {e : SyntaxError} {input : Text} (h : e.pos ≤ input.length) :
    PointsInto input (e.message input) := by
  refine ⟨e.cause.message, e.pos, h, ?_⟩
  have hopen : (" in path:\n  " : Text) = (" in path:\n" : Text) ++ [0x20, 0x20] := by decide
  have hmiddle : ("\n  " : Text) = [0x0a, 0x20, 0x20] := by decide
  have hcaret : ("^" : Text) = [0x5e] := by decide
  rw [SyntaxError.message, Text.context, if_pos rfl, hopen, hmiddle, hcaret]
  simp only [List.append_assoc]

namespace Path

variable [Regex.Library]

theorem pos_le_of_parse {strict : Bool} {input : Text} {e : SyntaxError} (h : Path.parse strict input = .error e) :
    e.pos ≤ input.length := by
  obtain ⟨hlexemes, hending⟩ := lexemes_within 0 input
  rw [Nat.zero_add] at hlexemes hending
  rcases Reader.blames_of_path (map_eq_error.mp h) with ⟨t, ht, hpos⟩ | hdone | hfailed
  · exact hpos ▸ Nat.le_of_lt (hlexemes t ht)
  · rwa [show (lexemes 0 input).2 = .done e.pos from hdone] at hending
  · rwa [show (lexemes 0 input).2 = .failed e from hfailed] at hending

/-- **Every text is read as a path, or refused by a syntax error whose report points into it; so too under the flags of
any session, where a text can be refused in no other way. And a token that has just been read can always be held
back.** -/
theorem parse_reports (input : Text) :
    (∀ strict, (∃ p, Path.parse strict input = .ok p) ∨
      ∃ e, Path.parse strict input = .error e ∧ PointsInto input (e.message input)) ∧
    (∀ s : Session, (∃ p, s.parse input = .ok p) ∨
      ∃ e, s.parse input = .error (.notPath input e) ∧ PointsInto input (Failure.message (.notPath input e))) ∧
    ∀ (l : Lexer) (lexeme : Lexeme), ∃ l', l.next.2.push? (some lexeme) = some l' := by
  have hparse : ∀ strict, (∃ p, Path.parse strict input = .ok p) ∨
      ∃ e, Path.parse strict input = .error e ∧ PointsInto input (e.message input) := by
    intro strict
    cases h : Path.parse strict input with
    | ok p => exact .inl ⟨p, rfl⟩
    | error e => exact .inr ⟨e, rfl, e.pointsInto (pos_le_of_parse h)⟩
  refine ⟨hparse, fun s => ?_, fun l lexeme => ⟨_, l.push?_next lexeme⟩⟩
  rcases hparse (s.hasFlags Session.strictFlag) with ⟨p, hp⟩ | ⟨e, he, hpoints⟩
  · exact .inl ⟨p, mapError_eq_ok.mpr hp⟩
  · exact .inr ⟨e, mapError_eq_error.mpr ⟨e, he, rfl⟩, hpoints⟩

end Path

end TreeQuery
