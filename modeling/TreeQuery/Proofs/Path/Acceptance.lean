import TreeQuery.Proofs.Path.Reading

/-!
# What is derived is read

Where the text can be cut to its end, the reader accepts every derivation of the grammar, whatever stands
after it, as long as that cannot be taken for its continuation. The loops over `and` and `or` start over with
what has been joined so far, so a derivation that joins from the left is followed by induction:

* `Reads g level ts p`: reading the tokens `ts` at a level leads to `p`, with the loops of the two joining
  levels still to come;
* `reads_of_expression`: every derived expression is read so;
* `steps_of_derived`, `path_of_whole`: steps and paths are read to the end;
* `Path.parse_eq_ok_iff`: a text is read as a path exactly if it can be cut to its end and its tokens derive
  the path.
-/

namespace TreeQuery.Reader

set_option autoImplicit false

open Grammar

variable {g : Reader} {stop : Nat}

/-! ## Tokens after an expression -/

/-- The next token cannot continue a primary expression. -/
def Stops (rest : List Lexeme) : Prop :=
  ∀ t ∈ rest.head?, t.token ≠ .openParen ∧ t.token ≠ .minus ∧ comparison? t.token = none

theorem stops_cons {t : Token} {pos : Nat} {rest : List Lexeme} (hopen : t ≠ .openParen) (hminus : t ≠ .minus)
    (hsign : comparison? t = none) : Stops (⟨t, pos⟩ :: rest) := by
  intro u hu
  cases hu
  exact ⟨hopen, hminus, hsign⟩

theorem Stops.not_open {rest : List Lexeme} (h : Stops rest) :
    rest.head?.any (·.token == .openParen) = false := by
  cases rest with
  | nil => rfl
  | cons t r => simpa using (h t rfl).1

theorem Stops.not_sign {rest : List Lexeme} (h : Stops rest) :
    (rest.head?.bind fun t => comparison? t.token) = none := by
  cases rest with
  | nil => rfl
  | cons t r => exact (h t rfl).2.2

theorem look_of_done (hg : g.ending = .done stop) (ts : List Lexeme) : g.look ts = .ok () := by
  unfold look
  rw [hg]
  cases ts <;> rfl

theorem tokens_eq_nil {ls : List Lexeme} : tokens ls = [] ↔ ls = [] := List.map_eq_nil_iff

theorem tokens_eq_cons {ls : List Lexeme} {t : Token} {ts : List Token} :
    tokens ls = t :: ts ↔ ∃ pos ms, ls = ⟨t, pos⟩ :: ms ∧ tokens ms = ts := by
  constructor
  · intro h
    obtain ⟨⟨_, pos⟩, ms, rfl, rfl, hms⟩ := List.map_eq_cons_iff.mp h
    exact ⟨pos, ms, rfl, hms⟩
  · rintro ⟨pos, ms, rfl, rfl⟩
    rfl

theorem tokens_eq_append {ls : List Lexeme} {ts us : List Token} :
    tokens ls = ts ++ us ↔ ∃ ms ns, ls = ms ++ ns ∧ tokens ms = ts ∧ tokens ns = us := List.map_eq_append_iff

theorem getElem?_length (ls : List Lexeme) (t : Lexeme) (rest : List Lexeme) :
    (ls ++ t :: rest)[ls.length]? = some t := by
  simp

theorem drop_length_succ (ls : List Lexeme) (t : Lexeme) (rest : List Lexeme) :
    (ls ++ t :: rest).drop (ls.length + 1) = rest := by
  simp

theorem length_joined (ls ms : List Lexeme) (t : Lexeme) (n : Nat) :
    ls.length + (ms.length + n + 1) = (ls ++ t :: ms).length + n := by
  rw [List.length_append, List.length_cons]
  omega

/-! ## Values, tests and separators -/

theorem number_of_fits {digits : Text} (h : Fits digits) (pos : Nat) :
    number digits pos = .ok digits.numeral := if_pos h

theorem value_of_derived {t : Token} {v : Text} (h : Value t v) (pos : Nat) (rest : List Lexeme) :
    g.value (⟨t, pos⟩ :: rest) = .ok v := by
  cases h <;> rfl

theorem comparison?_of_sign {t : Token} {c : Comparison} (h : Sign t c) : comparison? t = some c := by
  cases h <;> rfl

theorem fromLast_of_stops (hg : g.ending = .done stop) {rest : List Lexeme} (h : Stops rest) :
    g.fromLast rest = .ok (.position ⟨true, 0⟩, 0) := by
  unfold fromLast
  split
  · exact absurd rfl (h _ rfl).2.1
  · simp [look_of_done hg]

theorem or_ne_and : Token.ident "or" ≠ .ident "and" := by decide

theorem testAfter_of_test {t : Token} {test : Text} (h : Test t test) (axis : Axis) (pos : Nat) :
    testAfter axis ⟨t, pos⟩ = .ok test := by
  cases h with
  | star => rfl
  | word word hword => simp [testAfter, checkTest, hword]

theorem ofName?_name (axis : Axis) : Axis.ofName? axis.name = some axis := by
  cases axis <;> decide

theorem separator?_of_separator {t : Token} {deep : Bool} (h : Separator t deep) : separator? t = some deep := by
  cases h <;> rfl

/-- After a step there is nothing, or a token that does not go on with it. -/
def EndsStep (rest : List Lexeme) : Prop :=
  ∀ t ∈ rest.head?, t.token ≠ .openBracket ∧ t.token ≠ .axisMark

theorem endsStep_of_separator {t : Token} {deep : Bool} (h : Separator t deep) (pos : Nat) (rest : List Lexeme) :
    EndsStep (⟨t, pos⟩ :: rest) := by
  rintro u ⟨⟩
  cases h <;> exact ⟨nofun, nofun⟩

variable [Regex.Library]

/-! ## Attributes -/

theorem attributeTest_of_compared {word : Text} {c : Comparison} {v : Text} {p : Predicate}
    (h : Compared g.strict word c v p) (pos : Nat) : g.attributeTest word pos c v = .ok p := by
  unfold attributeTest
  dsimp only
  cases h with
  | name v hname => rw [if_pos ⟨hname, rfl⟩]
  | notName v hname => rw [if_neg (by simp), if_pos ⟨hname, rfl⟩]
  | regex c v r hmatches hr =>
      have hname : ¬ word.lowered = ("name" : Text) := by rw [hmatches]; decide
      have hknown : isAttributeWord word.lowered := by rw [hmatches]; decide
      rw [if_neg (fun h => hname h.1), if_neg (fun h => hname h.1), if_neg (fun h => h.2 hknown),
        if_pos hmatches, hr]
  | plain c v hname hmatches hknown =>
      rw [if_neg, if_neg, if_neg (fun h => h.2 (hknown h.1)), if_neg hmatches]
      · rintro ⟨h, rfl⟩
        cases hname h
      · rintro ⟨h, rfl⟩
        cases hname h

/-! ## Expressions -/

theorem primary_of_word (hg : g.ending = .done stop) (word : Text) (pos : Nat) {rest : List Lexeme}
    (h : Stops rest) : g.primary (⟨.ident word, pos⟩ :: rest) = .ok (loneWord word, 1) := by
  rw [primary]
  dsimp only
  by_cases hlast : word = ("last" : Text)
  · simp [hlast, look_of_done hg, h.not_open]
  · rw [if_neg hlast]

theorem primary_of_lone (hg : g.ending = .done stop) (word : Text) (pos wordPos : Nat) {rest : List Lexeme}
    (h : Stops rest) :
    g.primary (⟨.atSign, pos⟩ :: ⟨.ident word, wordPos⟩ :: rest) = .ok (loneAttribute word, 2) := by
  simp [primary, afterAt, look_of_done hg, h.not_sign]

theorem moreConjuncts_of_head {p : Predicate} {rest : List Lexeme} (hg : g.ending = .done stop)
    (h : ∀ t ∈ rest.head?, t.token ≠ .ident "and") : g.moreConjuncts p rest = .ok (p, 0) := by
  cases rest with
  | nil => simp [moreConjuncts, look_of_done hg]
  | cons t r => rw [moreConjuncts, if_neg (h t rfl)]

/-- Reading the tokens at a level leads to the predicate, before anything that cannot continue them. -/
def Reads (g : Reader) (level : Level) (ts : List Token) (p : Predicate) : Prop :=
  ∀ ls rest, tokens ls = ts → Stops rest →
    match level with
    | .primary => g.primary (ls ++ rest) = .ok (p, ls.length)
    | .unary => g.unary (ls ++ rest) = .ok (p, ls.length)
    | .conjunction =>
        g.conjunction (ls ++ rest) = (g.moreConjuncts p rest).map fun (q, n) => (q, ls.length + n)
    | .disjunction => (∀ t ∈ rest.head?, t.token ≠ .ident "and") →
        g.disjunction (ls ++ rest) = (g.moreDisjuncts p rest).map fun (q, n) => (q, ls.length + n)

/-- A closing token ends the loops. -/
theorem disjunction_of_reads {ts : List Token} {p : Predicate} (h : Reads g .disjunction ts p)
    {ls : List Lexeme} (hls : tokens ls = ts) {t : Token} (ht : t = .closeParen ∨ t = .closeBracket) (pos : Nat)
    (rest : List Lexeme) : g.disjunction (ls ++ ⟨t, pos⟩ :: rest) = .ok (p, ls.length) := by
  have hrest : Stops (⟨t, pos⟩ :: rest) := by
    rcases ht with rfl | rfl <;> exact stops_cons (by decide) (by decide) rfl
  have hword : ∀ w, t ≠ .ident w := by
    rcases ht with rfl | rfl <;> rintro w ⟨⟩
  have hand : ∀ u ∈ (⟨t, pos⟩ :: rest : List Lexeme).head?, u.token ≠ .ident "and" := by
    intro u hu
    cases hu
    exact hword "and"
  have hmore : g.moreDisjuncts p (⟨t, pos⟩ :: rest) = .ok (p, 0) := by
    rw [moreDisjuncts, if_neg (hword "or")]
  rw [h ls _ hls hrest hand, hmore]
  rfl

theorem Reads.not {ts : List Token} {p : Predicate} (h : Reads g .primary ts p) (hne : ts ≠ [])
    (hopen : ts.head? ≠ some .openParen) : Reads g .unary (.ident "not" :: ts) (.not p) := by
  intro ls rest hls hrest
  obtain ⟨pos, ms, rfl, hms⟩ := tokens_eq_cons.mp hls
  have hprimary := h ms rest hms hrest
  obtain ⟨t, ts, rfl⟩ := List.exists_cons_of_ne_nil hne
  obtain ⟨pos₁, ms, rfl, -⟩ := tokens_eq_cons.mp hms
  dsimp only [List.cons_append] at hprimary ⊢
  rw [Reader.unary.eq_def]
  dsimp only
  rw [if_pos rfl]
  -- After `not`, a parenthesis is ruled out, and a failure of the primary expression contradicts its reading.
  split
  · exact absurd rfl hopen
  · rw [Reader.primary] at hprimary
    cases hprimary
  · rw [Reader.primary] at hprimary
    cases hprimary
  · rw [hprimary]
    rfl

theorem Reads.primary {ts : List Token} {p : Predicate} (h : Reads g .primary ts p) (hne : ts ≠ [])
    (hnot : ts.head? ≠ some (.ident "not")) : Reads g .unary ts p := by
  intro ls rest hls hrest
  have hprimary := h ls rest hls hrest
  obtain ⟨t, ts, rfl⟩ := List.exists_cons_of_ne_nil hne
  obtain ⟨pos, ls, rfl, -⟩ := tokens_eq_cons.mp hls
  dsimp only [List.cons_append] at hprimary ⊢
  rw [Reader.unary.eq_def]
  dsimp only
  rwa [if_neg (by simpa using hnot)]

theorem Reads.unary {ts : List Token} {p : Predicate} (h : Reads g .unary ts p) : Reads g .conjunction ts p := by
  intro ls rest hls hrest
  have hunary := h ls rest hls hrest
  dsimp only at hunary ⊢
  rw [Reader.conjunction, hunary, ok_bind]
  dsimp only
  rw [List.drop_left]
  cases g.moreConjuncts p rest <;> rfl

/-- The loop over `and` goes on with what has been joined so far. -/
theorem Reads.and {ts us : List Token} {p q : Predicate} (hp : Reads g .conjunction ts p)
    (hq : Reads g .unary us q) : Reads g .conjunction (ts ++ .ident "and" :: us) (.and p q) := by
  intro ls rest hls hrest
  simp only [tokens_eq_append, tokens_eq_cons] at hls
  obtain ⟨ls, _, rfl, hls, pos, ms, rfl, hms⟩ := hls
  have hleft := hp ls (⟨.ident "and", pos⟩ :: ms ++ rest) hls (stops_cons (by decide) (by decide) rfl)
  have hright := hq ms rest hms hrest
  dsimp only at hleft hright ⊢
  rw [List.append_assoc, hleft, List.cons_append, moreConjuncts, if_pos rfl, hright, ok_bind]
  dsimp only
  rw [List.drop_left]
  cases g.moreConjuncts (.and p q) rest with
  | error e => rfl
  | ok r =>
      rw [map_ok, ← length_joined]
      rfl

theorem Reads.conjunction (hg : g.ending = .done stop) {ts : List Token} {p : Predicate}
    (h : Reads g .conjunction ts p) : Reads g .disjunction ts p := by
  intro ls rest hls hrest hand
  have hconjunction := h ls rest hls hrest
  dsimp only at hconjunction ⊢
  rw [Reader.disjunction, hconjunction, moreConjuncts_of_head hg hand, map_ok, ok_bind]
  dsimp only
  rw [Nat.add_zero, List.drop_left]
  cases g.moreDisjuncts p rest <;> rfl

theorem Reads.or (hg : g.ending = .done stop) {ts us : List Token} {p q : Predicate}
    (hp : Reads g .disjunction ts p) (hq : Reads g .conjunction us q) :
    Reads g .disjunction (ts ++ .ident "or" :: us) (.or p q) := by
  intro ls rest hls hrest hand
  simp only [tokens_eq_append, tokens_eq_cons] at hls
  obtain ⟨ls, _, rfl, hls, pos, ms, rfl, hms⟩ := hls
  have hnext : ∀ t ∈ (⟨.ident "or", pos⟩ :: ms ++ rest : List Lexeme).head?, t.token ≠ .ident "and" := by
    rintro t ⟨⟩
    exact or_ne_and
  have hleft := hp ls (⟨.ident "or", pos⟩ :: ms ++ rest) hls (stops_cons (by decide) (by decide) rfl) hnext
  have hright := hq ms rest hms hrest
  dsimp only at hleft hright ⊢
  rw [List.append_assoc, hleft, List.cons_append, moreDisjuncts, if_pos rfl, hright,
    moreConjuncts_of_head hg hand, map_ok, ok_bind]
  dsimp only
  rw [Nat.add_zero, List.drop_left]
  cases g.moreDisjuncts (.or p q) rest with
  | error e => rfl
  | ok r =>
      rw [map_ok, ← length_joined]
      rfl

theorem reads_of_expression (hg : g.ending = .done stop) {level : Level} {ts : List Token} {p : Predicate}
    (h : Expression g.strict level ts p) : Reads g level ts p := by
  induction h with
  | position digits hfits =>
      intro ls rest hls _
      simp only [tokens_eq_cons, tokens_eq_nil] at hls
      obtain ⟨pos, _, rfl, rfl⟩ := hls
      simp [primary, number_of_fits hfits]
  | last =>
      intro ls rest hls hrest
      simp only [tokens_eq_cons, tokens_eq_nil] at hls
      obtain ⟨pos, _, rfl, pos₁, _, rfl, pos₂, _, rfl, rfl⟩ := hls
      simp [primary, look_of_done hg, closeParen, fromLast_of_stops hg hrest]
  | lastBut digits hfits =>
      intro ls rest hls hrest
      simp only [tokens_eq_cons, tokens_eq_nil] at hls
      obtain ⟨pos, _, rfl, pos₁, _, rfl, pos₂, _, rfl, pos₃, _, rfl, pos₄, _, rfl, rfl⟩ := hls
      simp [primary, look_of_done hg, closeParen, fromLast, number_of_fits hfits]
  | flagWord word hflag =>
      intro ls rest hls hrest
      simp only [tokens_eq_cons, tokens_eq_nil] at hls
      obtain ⟨pos, _, rfl, rfl⟩ := hls
      have hword := primary_of_word hg word pos hrest
      rwa [loneWord, if_pos hflag] at hword
  | word word hflag =>
      intro ls rest hls hrest
      simp only [tokens_eq_cons, tokens_eq_nil] at hls
      obtain ⟨pos, _, rfl, rfl⟩ := hls
      have hword := primary_of_word hg word pos hrest
      rwa [loneWord, if_neg hflag] at hword
  | string v =>
      intro ls rest hls _
      simp only [tokens_eq_cons, tokens_eq_nil] at hls
      obtain ⟨pos, _, rfl, rfl⟩ := hls
      simp [primary]
  | star =>
      intro ls rest hls _
      simp only [tokens_eq_cons, tokens_eq_nil] at hls
      obtain ⟨pos, _, rfl, rfl⟩ := hls
      simp [primary]
  | present word hword =>
      intro ls rest hls hrest
      simp only [tokens_eq_cons, tokens_eq_nil] at hls
      obtain ⟨pos, _, rfl, pos₁, _, rfl, rfl⟩ := hls
      have hlone := primary_of_lone hg word pos pos₁ hrest
      rwa [loneAttribute, if_pos hword] at hlone
  | flag word hword =>
      intro ls rest hls hrest
      simp only [tokens_eq_cons, tokens_eq_nil] at hls
      obtain ⟨pos, _, rfl, pos₁, _, rfl, rfl⟩ := hls
      have hlone := primary_of_lone hg word pos pos₁ hrest
      rwa [loneAttribute, if_neg hword] at hlone
  | compared word hsign hvalue hp =>
      intro ls rest hls _
      simp only [tokens_eq_cons, tokens_eq_nil] at hls
      obtain ⟨pos, _, rfl, pos₁, _, rfl, pos₂, _, rfl, pos₃, _, rfl, rfl⟩ := hls
      simp [primary, afterAt, look_of_done hg, comparison?_of_sign hsign, value_of_derived hvalue,
        attributeTest_of_compared hp]
  | group hp ih =>
      intro ls rest hls _
      simp only [List.cons_append, tokens_eq_cons, tokens_eq_append, tokens_eq_nil] at hls
      obtain ⟨pos, _, rfl, ls, _, rfl, hls, pos₁, _, rfl, rfl⟩ := hls
      simp [primary, disjunction_of_reads ih hls (.inl rfl), closeParen]
  | notGroup hp ih =>
      intro ls rest hls _
      simp only [List.cons_append, tokens_eq_cons, tokens_eq_append, tokens_eq_nil] at hls
      obtain ⟨pos, _, rfl, pos₁, _, rfl, ls, _, rfl, hls, pos₂, _, rfl, rfl⟩ := hls
      simp [Reader.unary, disjunction_of_reads ih hls (.inl rfl), closeParen]
  | not hp hopen ih => exact ih.not hp.ne_nil hopen
  | primary hp hnot ih => exact ih.primary hp.ne_nil hnot
  | unary hp ih => exact ih.unary
  | and hp hq ihp ihq => exact ihp.and ihq
  | conjunction hp ih => exact ih.conjunction hg
  | or hp hq ihp ihq => exact ihp.or hg ihq

/-! ## Steps -/

theorem predicates_of_derived (hg : g.ending = .done stop) {ts : List Token} {ps : List Predicate}
    (h : Predicates g.strict ts ps) : ∀ ls rest, tokens ls = ts →
      (∀ t ∈ rest.head?, t.token ≠ .openBracket) → g.predicates (ls ++ rest) = .ok (ps, ls.length) := by
  induction h with
  | nil =>
      intro ls rest hls hrest
      obtain rfl := tokens_eq_nil.mp hls
      cases rest with
      | nil => simp [predicates, look_of_done hg]
      | cons t r =>
        rw [List.nil_append, predicates, if_neg (hrest t rfl)]
        rfl
  | cons hp _ ih =>
      intro ls rest hls hrest
      simp only [List.cons_append, tokens_eq_cons, tokens_eq_append] at hls
      obtain ⟨pos, _, rfl, ls, _, rfl, hls, pos₁, ms, rfl, hms⟩ := hls
      have hread := disjunction_of_reads (reads_of_expression hg hp) hls (.inr rfl) pos₁ (ms ++ rest)
      have hmore := ih ms rest hms hrest
      have hne : ¬ (ls ++ ⟨.closeBracket, pos₁⟩ :: (ms ++ rest)).head?.any (·.token == .closeBracket) = true := by
        intro hclose
        obtain ⟨u, r, hr, hu⟩ := cons_of_head?_any hclose
        obtain ⟨t, ts, rfl⟩ := List.exists_cons_of_ne_nil hp.ne_nil
        obtain ⟨pos₂, ls, rfl, -⟩ := tokens_eq_cons.mp hls
        cases hr
        exact hp.head?_ne_closeBracket (congrArg some hu)
      rw [List.cons_append, List.append_assoc, List.cons_append, predicates, if_pos rfl, if_neg hne, hread, ok_bind]
      dsimp only
      rw [getElem?_length]
      dsimp only
      rw [if_pos rfl, drop_length_succ, hmore]
      simp only [pure_eq_ok, ok_bind, List.length_cons, List.length_append, Except.ok.injEq, Prod.mk.injEq, true_and]
      omega

theorem stepWith_of_derived (hg : g.ending = .done stop) {ts : List Token} {ps : List Predicate}
    (h : Predicates g.strict ts ps) (before : List Step) (axis : Axis) (test : Option Text) {ls rest : List Lexeme}
    (hls : tokens ls = ts) (hrest : EndsStep rest) :
    g.stepWith before axis test (ls ++ rest) = .ok (before ++ [⟨axis, test, ps⟩], ls.length) := by
  rw [stepWith, predicates_of_derived hg h ls rest hls fun t ht => (hrest t ht).1]
  rfl

theorem not_axisMark_of_derived {ts : List Token} {ps : List Predicate} (h : Predicates g.strict ts ps)
    {ls rest : List Lexeme} (hls : tokens ls = ts) (hrest : EndsStep rest) :
    (ls ++ rest).head?.any (·.token == .axisMark) = false := by
  cases ls with
  | nil =>
      cases rest with
      | nil => rfl
      | cons t r => simpa using (hrest t rfl).2
  | cons t ls =>
      have ht : t.token = .openBracket := h.head? t.token (by rw [← hls]; rfl)
      simp [ht]

theorem step_of_single (hg : g.ending = .done stop) {deep : Bool} {ts : List Token} {ss : List Step}
    (h : Single g.strict deep ts ss) {ls rest : List Lexeme} (hls : tokens ls = ts) (hrest : EndsStep rest) :
    ∃ t r, ls = t :: r ∧ g.step deep t (r ++ rest) = .ok (ss, r.length) := by
  cases h with
  | dot hps =>
      obtain ⟨pos, r, rfl, hr⟩ := tokens_eq_cons.mp hls
      exact ⟨_, r, rfl, stepWith_of_derived hg hps _ _ _ hr hrest⟩
  | dotDot hps =>
      obtain ⟨pos, r, rfl, hr⟩ := tokens_eq_cons.mp hls
      exact ⟨_, r, rfl, stepWith_of_derived hg hps _ _ _ hr hrest⟩
  | @bare _ _ _ test htest hps =>
      obtain ⟨pos, r, rfl, hr⟩ := tokens_eq_cons.mp hls
      have hstep := stepWith_of_derived hg hps [] (bareAxis deep) (some test) hr hrest
      refine ⟨_, r, rfl, ?_⟩
      cases htest with
      | star => exact hstep
      | word word hword =>
          have hmark := not_axisMark_of_derived hps hr hrest
          simp only [step, look_of_done hg, ok_bind, hmark, checkTest, hword]
          exact hstep
  | @axis _ _ _ test axis htest hps =>
      simp only [tokens_eq_cons] at hls
      obtain ⟨pos, _, rfl, pos₁, _, rfl, pos₂, r, rfl, hr⟩ := hls
      have hstep := stepWith_of_derived hg hps (below deep) axis (some test) hr hrest
      refine ⟨_, _, rfl, ?_⟩
      simp only [below] at hstep ⊢
      simp [step, look_of_done hg, ofName?_name, testAfter_of_test htest, hstep]

/-! ## Paths -/

theorem steps_of_derived (hg : g.ending = .done stop) {deep : Bool} {ts : List Token} {ss : List Step}
    (h : Steps g.strict deep ts ss) : ∀ ls, tokens ls = ts → g.steps deep ls = .ok ss := by
  induction h with
  | one hsingle =>
      intro ls hls
      have hend : EndsStep [] := nofun
      obtain ⟨t, r, rfl, hstep⟩ := step_of_single hg hsingle hls hend
      rw [List.append_nil] at hstep
      rw [steps, hstep]
      simp [look_of_done hg]
  | cons hsingle hsep _ ih =>
      intro ls hls
      simp only [tokens_eq_append, tokens_eq_cons] at hls
      obtain ⟨ls, _, rfl, hls, pos, ms, rfl, hms⟩ := hls
      obtain ⟨t, r, rfl, hstep⟩ := step_of_single hg hsingle hls (endsStep_of_separator hsep pos ms)
      have hmore := ih ms hms
      have hne : ms.isEmpty = false := by
        cases ms with
        | nil => rw [steps] at hmore; cases hmore
        | cons => rfl
      rw [List.cons_append, steps, hstep, ok_bind]
      dsimp only
      rw [getElem?_length]
      dsimp only
      rw [separator?_of_separator hsep]
      simp [hne, hmore]

theorem steps_head? {strict deep : Bool} {ts : List Token} {ss : List Step} (h : Steps strict deep ts ss) :
    ∃ t us, ts = t :: us ∧ separator? t = none := by
  have hsingle : ∀ {ts ss}, Single strict deep ts ss → ∃ t us, ts = t :: us ∧ separator? t = none := by
    intro ts ss h
    cases h with
    | bare htest => cases htest <;> exact ⟨_, _, rfl, rfl⟩
    | _ => exact ⟨_, _, rfl, rfl⟩
  cases h with
  | one h => exact hsingle h
  | cons h =>
      obtain ⟨t, us, rfl, ht⟩ := hsingle h
      exact ⟨t, _, rfl, ht⟩

theorem path_of_whole (hg : g.ending = .done stop) {ts : List Token} {absolute : Bool} {ss : List Step}
    (h : Whole g.strict ts absolute ss) {ls : List Lexeme} (hls : tokens ls = ts) :
    g.path ls = .ok (absolute, ss) := by
  cases h with
  | top =>
      simp only [tokens_eq_cons, tokens_eq_nil] at hls
      obtain ⟨pos, _, rfl, rfl⟩ := hls
      simp [path, separator?, look_of_done hg]
  | relative hsteps =>
      have hread := steps_of_derived hg hsteps ls hls
      obtain ⟨t, us, rfl, ht⟩ := steps_head? hsteps
      obtain ⟨pos, ls, rfl, -⟩ := tokens_eq_cons.mp hls
      simp [path, ht, hread]
  | absolute hsep hsteps =>
      obtain ⟨pos, r, rfl, hr⟩ := tokens_eq_cons.mp hls
      have hread := steps_of_derived hg hsteps r hr
      obtain ⟨t, us, rfl, -⟩ := steps_head? hsteps
      obtain ⟨pos₁, r, rfl, -⟩ := tokens_eq_cons.mp hr
      cases hsep <;> simp [path, separator?, hread]

end TreeQuery.Reader

namespace TreeQuery.Path

set_option autoImplicit false

open Grammar

variable [Regex.Library] {strict : Bool} {input : Text}

theorem whole_of_parse {p : Path} (h : Path.parse strict input = .ok p) :
    p.text = input ∧ ∃ ts, tokens? input = some ts ∧ Whole strict ts p.absolute p.steps := by
  rw [parse] at h
  cases hl : lexemes 0 input with
  | mk ls ending =>
      rw [hl] at h
      obtain ⟨⟨absolute, ss⟩, hpath, rfl⟩ := map_eq_ok.mp h
      obtain ⟨hwhole, stop, rfl⟩ := Reader.whole_of_path hpath
      exact ⟨rfl, Reader.tokens ls, by rw [tokens?, hl], hwhole⟩

theorem parse_of_whole {ts : List Token} {absolute : Bool} {ss : List Step} (hts : tokens? input = some ts)
    (h : Whole strict ts absolute ss) : Path.parse strict input = .ok ⟨input, absolute, ss⟩ := by
  unfold tokens? at hts
  split at hts
  · rename_i ls stop hls
    have hpath : Reader.path ⟨strict, .done stop⟩ ls = .ok (absolute, ss) :=
      Reader.path_of_whole rfl h (Option.some.inj hts)
    rw [parse, hls]
    dsimp only
    rw [hpath]
    rfl
  · cases hts

/-- **A text is read as a path exactly if it can be cut into tokens to its end and these derive the path.** -/
theorem parse_eq_ok_iff (strict : Bool) (input : Text) (p : Path) :
    Path.parse strict input = .ok p ↔
      p.text = input ∧ ∃ ts, tokens? input = some ts ∧ Whole strict ts p.absolute p.steps := by
  constructor
  · exact whole_of_parse
  · rintro ⟨rfl, ts, hts, hwhole⟩
    exact parse_of_whole hts hwhole

end TreeQuery.Path
