import TreeQuery.Proofs.Path.Lexing

/-!
# What is written can be read

Every path that was read from a text is `Readable`: its flags and attributes are words, its positions fit, its
comparisons are ones that the grammar knows. A readable path is written in a form that is cut into the tokens
`Path.tokens`, and these derive the path again.

* `Predicate.readable_of_expression`, `Step.readable_of_whole`: what is derived from words is readable;
* `Predicate.spells_print`, `Path.lexes_print`: what is written is cut into the intended tokens;
* `Predicate.expression_tokens`, `Path.whole_tokens`: these derive the path, with every test spelled out.
-/

namespace TreeQuery

set_option autoImplicit false

open Grammar

/-! ## Tokens of what is written -/

def Position.tokens (p : Position) : List Token :=
  if p.fromLast then
    .ident "last" :: .openParen :: .closeParen ::
      if p.offset = 0 then [] else [.minus, .number (Text.ofNat p.offset)]
  else [.number (Text.ofNat p.offset)]

def Comparison.tokens (v : Text) : Comparison → List Token
  | present => []
  | equal => [.equal, .string v]
  | notEqual => [.notEqual, .string v]
  | contains => [.contains, .string v]

def AttributeTest.tokens (a : AttributeTest) : List Token :=
  .atSign :: .ident a.name :: a.comparison.tokens a.value

/-- Tokens in parentheses, if they are joined. -/
def grouped (joined : Bool) (ts : List Token) : List Token :=
  if joined then .openParen :: ts ++ [.closeParen] else ts

def Predicate.tokens : Predicate → List Token
  | name pattern => [.atSign, .ident "name", .equal, .string pattern]
  | flag word => [.atSign, .ident word]
  | position p => p.tokens
  | attr a => a.tokens
  | not p => .ident "not" :: .openParen :: p.tokens ++ [.closeParen]
  | and p q => grouped p.isJoined p.tokens ++ .ident "and" :: grouped q.isJoined q.tokens
  | or p q => grouped p.isJoined p.tokens ++ .ident "or" :: grouped q.isJoined q.tokens

/-- The test as it is written: what passes everything is an asterisk. -/
def Step.written (s : Step) : Text := s.test.getD "*"

/-- The step with its test spelled out. -/
def Step.spelled (s : Step) : Step := { s with test := some s.written }

def testToken (w : Text) : Token := if w = ("*" : Text) then .star else .ident w

def bracketed (ps : List Predicate) : List Token :=
  ps.flatMap fun p => .openBracket :: p.tokens ++ [.closeBracket]

def Step.tokens (s : Step) : List Token :=
  .ident s.axis.name :: .axisMark :: testToken s.written :: bracketed s.predicates

def Path.tokens (p : Path) : List Token :=
  (if p.absolute then [.slash] else []) ++ List.intercalate [.slash] (p.steps.map Step.tokens)

theorem Position.head?_tokens (p : Position) : p.tokens.head? ≠ some (.ident "not") := by
  have hnot : (.ident "last" : Token) ≠ .ident "not" := by decide
  unfold tokens
  split
  · simpa using hnot
  · nofun

/-! ## Words and symbols -/

theorem lower_lower (b : UInt8) : Byte.lower (Byte.lower b) = Byte.lower b := by
  simp only [Byte.lower, Byte.isUpper]
  grind

theorem lowered_lowered (t : Text) : t.lowered.lowered = t.lowered := by
  simp [Text.lowered, lower_lower]

theorem not_isAttributeWord_of_isFlagWord {word : Text} (h : isFlagWord word) : ¬ isAttributeWord word := by
  have hall : ∀ w ∈ flagWords, ¬ isAttributeWord w := by decide
  exact hall word (List.mem_of_elem_eq_true h)

/-- The words that the written form puts between what it is made of. -/
theorem isWord_keyword (w : Text) (h : w ∈ (["name", "last", "not", "and", "or"] : List Text)) : IsWord w := by
  simp only [List.mem_cons, List.not_mem_nil, or_false] at h
  rcases h with rfl | rfl | rfl | rfl | rfl <;> exact ⟨_, _, rfl, rfl, rfl, by decide⟩

theorem Axis.isWord_name (axis : Axis) : IsWord axis.name := by
  cases axis <;> exact ⟨_, _, rfl, rfl, rfl, by decide⟩

theorem readable_of_test {t : Token} {w : Text} (h : Test t w) (hword : ∀ v, t = .ident v → IsWord v) :
    ∀ v ∈ some w, v = ("*" : Text) ∨ IsWord v ∧ ¬ Wildcard.occursIn v := by
  rintro v ⟨⟩
  cases h with
  | star => exact .inl rfl
  | word _ hw => exact .inr ⟨hword w rfl, hw⟩

theorem Lexes.symbol {b : UInt8} {t : Text} {tok : Token} {ts : List Token} (h : Lexes t ts)
    (hspace : Byte.isSpace b = false) (hread : readToken b t = .ok (tok, 0)) : Lexes (b :: t) (tok :: ts) :=
  h.token (r := []) hspace hread

theorem Lexes.slash {t : Text} {ts : List Token} (h : Lexes t ts) (ht : t.head? ≠ some 0x2f) :
    Lexes (0x2f :: t) (.slash :: ts) := by
  refine h.symbol rfl ?_
  change Except.ok (if t.head? = some 0x2f then (Token.doubleSlash, 1) else (.slash, 0)) = _
  rw [if_neg ht]

theorem boundary_bracketed (ps : List Predicate) {t : Text} (h : Boundary t) :
    Boundary (ps.flatMap (fun p => ("[" ++ p.print ++ "]" : Text)) ++ t) := by
  cases ps with
  | nil => exact h
  | cons p ps => rfl

theorem Axis.head?_name (a : Axis) (t : Text) : (a.name ++ t).head? ≠ some 0x2f := by
  cases a <;> exact fun h => absurd (Option.some.inj h) (by decide)

theorem Step.head?_print (s : Step) (t : Text) : (s.print ++ t).head? ≠ some 0x2f := by
  unfold print
  simp only [List.append_assoc]
  exact s.axis.head?_name _

/-- The text is cut into the tokens, whatever ends it. -/
def Spells (written : Text) (ts : List Token) : Prop :=
  ∀ ⦃t us⦄, Lexes t us → Boundary t → Lexes (written ++ t) (ts ++ us)

theorem Position.spells_print (p : Position) : Spells p.print p.tokens := by
  intro t ts h ht
  have hlast : ∀ {t ts}, Lexes t ts →
      Lexes (("last()" : Text) ++ t) (.ident "last" :: .openParen :: .closeParen :: ts) := by
    intro t ts h
    have hclose := h.symbol (b := 0x29) rfl rfl
    have hopen := hclose.symbol (b := 0x28) rfl rfl
    exact hopen.word (isWord_keyword "last" (by decide)) rfl
  obtain ⟨fromLast, offset⟩ := p
  cases fromLast with
  | false => exact h.number ht
  | true =>
      by_cases hzero : offset = 0
      · subst hzero
        exact hlast h
      · have hminus := (h.number (n := offset) ht).symbol (b := 0x2d) rfl rfl
        simpa [print, tokens, hzero] using hlast hminus

theorem Comparison.lexes_sign {t : Text} {ts : List Token} (h : Lexes t ts) (ht : Boundary t) (c : Comparison)
    (v : Text) : Lexes (c.sign ++ (if c = .present then [] else quoted v) ++ t) (c.tokens v ++ ts) ∧
      Boundary (c.sign ++ (if c = .present then [] else quoted v) ++ t) := by
  have hquoted := h.quoted v
  cases c with
  | present => exact ⟨h, ht⟩
  | equal => exact ⟨hquoted.symbol (b := 0x3d) rfl rfl, rfl⟩
  | notEqual => exact ⟨hquoted.token (b := 0x21) (r := [0x3d]) rfl rfl, rfl⟩
  | contains => exact ⟨hquoted.token (b := 0x7e) (r := [0x3d]) rfl rfl, rfl⟩

theorem Spells.grouped {written : Text} {ts : List Token} (h : Spells written ts) (joined : Bool) :
    Spells (Predicate.parenthesized joined written) (grouped joined ts) := by
  intro t us ht hboundary
  cases joined with
  | false => exact h ht hboundary
  | true =>
      have hclose := ht.symbol (b := 0x29) rfl rfl
      have hopen := (h hclose rfl).symbol (b := 0x28) rfl rfl
      have hprint : Predicate.parenthesized true written ++ t = 0x28 :: (written ++ 0x29 :: t) := by
        simp only [Predicate.parenthesized, if_true, List.append_assoc]
        rfl
      simpa [hprint, TreeQuery.grouped] using hopen

/-- Operands with a word and blanks between them. -/
theorem Spells.joined {left right word : Text} {ts us : List Token} (hleft : Spells left ts)
    (hright : Spells right us) (hword : IsWord word) :
    Spells (left ++ (0x20 :: word ++ [0x20]) ++ right) (ts ++ .ident word :: us) := by
  intro t vs ht hboundary
  have hmiddle := ((hright ht hboundary).blank.word hword rfl).blank
  simpa using hleft hmiddle rfl

variable [Regex.Library]

/-! ## Readable predicates -/

/-- The attribute is a word in lower case; if it is only asked for, it is a known one. -/
structure AttributeTest.Readable (strict : Bool) (a : AttributeTest) : Prop where
  word : IsWord a.name
  lowered : a.name.lowered = a.name
  present : a.comparison = .present → isAttributeWord a.name ∧ a.value = [] ∧ a.regex = none
  compared : a.comparison ≠ .present → Compared strict a.name a.comparison a.value (.attr a)

/-- The predicate can be read from some text. -/
def Predicate.Readable (strict : Bool) : Predicate → Prop
  | name _ => True
  | flag word => IsWord word ∧ ¬ isAttributeWord word.lowered
  | position p => p.offset ≤ 0xffffffffffffffff
  | attr a => a.Readable strict
  | not p => p.Readable strict
  | and p q => p.Readable strict ∧ q.Readable strict
  | or p q => p.Readable strict ∧ q.Readable strict

theorem Predicate.readable_of_compared {strict : Bool} {word v : Text} {c : Comparison} {p : Predicate}
    (h : Compared strict word c v p) (hc : c ≠ .present) (hword : IsWord word) : p.Readable strict := by
  have hsame := lowered_lowered word
  cases h with
  | name => trivial
  | notName => trivial
  | regex c v r hmatches hr =>
      refine ⟨hword.lowered, hsame, fun h => absurd h hc, fun _ => ?_⟩
      have hcompared : Compared strict word.lowered c v _ := .regex c v r (hsame.trans hmatches) hr
      rwa [hsame] at hcompared
  | plain c v hname hmatches hknown =>
      refine ⟨hword.lowered, hsame, fun h => absurd h hc, fun _ => ?_⟩
      have hcompared : Compared strict word.lowered c v _ :=
        .plain c v (by rwa [hsame]) (by rwa [hsame]) (by rwa [hsame])
      rwa [hsame] at hcompared

theorem Predicate.readable_of_expression {strict : Bool} {level : Level} {ts : List Token} {p : Predicate}
    (h : Expression strict level ts p) (hwords : ∀ w, .ident w ∈ ts → IsWord w) : p.Readable strict := by
  induction h with
  | position digits hfits => exact hfits
  | last => exact Nat.zero_le _
  | lastBut digits hfits => exact hfits
  | flagWord word hflag => exact ⟨hwords word (by simp), not_isAttributeWord_of_isFlagWord hflag⟩
  | word word hflag => trivial
  | string v => trivial
  | star => trivial
  | present word hword =>
      refine ⟨(hwords word (by simp)).lowered, lowered_lowered word, fun _ => ⟨hword, rfl, rfl⟩, ?_⟩
      exact fun h => absurd rfl h
  | flag word hword => exact ⟨hwords word (by simp), hword⟩
  | compared word hsign hvalue hp => exact readable_of_compared hp hsign.ne_present (hwords word (by simp))
  | group _ ih => exact ih fun w hw => hwords w (by simp [hw])
  | notGroup _ ih => exact ih fun w hw => hwords w (by simp [hw])
  | not _ _ ih => exact ih fun w hw => hwords w (by simp [hw])
  | primary _ _ ih => exact ih hwords
  | unary _ ih => exact ih hwords
  | and _ _ ihp ihq => exact ⟨ihp fun w hw => hwords w (by simp [hw]), ihq fun w hw => hwords w (by simp [hw])⟩
  | conjunction _ ih => exact ih hwords
  | or _ _ ihp ihq => exact ⟨ihp fun w hw => hwords w (by simp [hw]), ihq fun w hw => hwords w (by simp [hw])⟩

/-! ## Deriving what is written -/

theorem Position.expression_tokens {strict : Bool} {p : Position} (h : p.offset ≤ 0xffffffffffffffff) :
    Expression strict .primary p.tokens (.position p) := by
  obtain ⟨fromLast, offset⟩ := p
  have hfits : Fits (Text.ofNat offset) := by rwa [Fits, Text.numeral_ofNat]
  cases fromLast with
  | false =>
      have hposition : Expression strict .primary _ _ := .position (Text.ofNat offset) hfits
      rwa [Text.numeral_ofNat] at hposition
  | true =>
      by_cases hzero : offset = 0
      · subst hzero
        exact .last
      · have hlast : Expression strict .primary _ _ := .lastBut (Text.ofNat offset) hfits
        rw [Text.numeral_ofNat] at hlast
        simpa [tokens, hzero] using hlast

theorem AttributeTest.expression_tokens {strict : Bool} {a : AttributeTest} (h : a.Readable strict) :
    Expression strict .primary a.tokens (.attr a) := by
  obtain ⟨name, comparison, value, regex⟩ := a
  cases comparison with
  | present =>
      obtain ⟨hknown, rfl, rfl⟩ := h.present rfl
      have hlowered : name.lowered = name := h.lowered
      have hpresent : Expression strict .primary _ _ := .present name (by rwa [hlowered])
      rwa [hlowered] at hpresent
  | equal => exact .compared name .equal (.string value) (h.compared nofun)
  | notEqual => exact .compared name .notEqual (.string value) (h.compared nofun)
  | contains => exact .compared name .contains (.string value) (h.compared nofun)

/-- What is not joined is unary, and parentheses make anything so. -/
theorem expression_grouped {strict joined : Bool} {ts : List Token} {p : Predicate}
    (h : Expression strict .disjunction ts p) (hunary : joined = false → Expression strict .unary ts p) :
    Expression strict .unary (grouped joined ts) p := by
  cases joined with
  | false => exact hunary rfl
  | true => exact .primary h.group nofun

/-- Expressions of every level are disjunctions; those that are not joined are also unary. -/
theorem Predicate.expression_tokens {strict : Bool} {p : Predicate} (h : p.Readable strict) :
    Expression strict .disjunction p.tokens p ∧ (p.isJoined = false → Expression strict .unary p.tokens p) := by
  have hunary : ∀ {ts p}, Expression strict .unary ts p →
      Expression strict .disjunction ts p ∧ (p.isJoined = false → Expression strict .unary ts p) :=
    fun h => ⟨.conjunction (.unary h), fun _ => h⟩
  induction p with
  | name pattern => exact hunary (.primary (.compared "name" .equal (.string pattern) (.name pattern rfl)) nofun)
  | flag word => exact hunary (.primary (.flag word h.2) nofun)
  | position p => exact hunary (.primary (p.expression_tokens h) p.head?_tokens)
  | attr a => exact hunary (.primary (a.expression_tokens h) nofun)
  | not p ih => exact hunary (.notGroup (ih h).1)
  | and p q ihp ihq =>
      have hp := expression_grouped (ihp h.1).1 (ihp h.1).2
      have hq := expression_grouped (ihq h.2).1 (ihq h.2).2
      exact ⟨.conjunction (.and (.unary hp) hq), nofun⟩
  | or p q ihp ihq =>
      have hp := expression_grouped (ihp h.1).1 (ihp h.1).2
      have hq := expression_grouped (ihq h.2).1 (ihq h.2).2
      exact ⟨.or (.conjunction (.unary hp)) (.unary hq), nofun⟩

/-! ## Cutting what is written -/

theorem AttributeTest.spells_print {strict : Bool} {a : AttributeTest} (ha : a.Readable strict) :
    Spells a.print a.tokens := by
  intro t ts h ht
  obtain ⟨hsign, hboundary⟩ := a.comparison.lexes_sign h ht a.value
  have hname := (hsign.word ha.word hboundary).symbol (b := 0x40) rfl rfl
  have hprint : a.print ++ t = 0x40 :: (a.name ++ (a.comparison.sign ++
      (if a.comparison = .present then [] else quoted a.value) ++ t)) := by
    simp only [print, List.append_assoc]
    rfl
  rw [hprint]
  exact hname

theorem Predicate.spells_print {strict : Bool} {p : Predicate} (hp : p.Readable strict) :
    Spells p.print p.tokens := by
  induction p with
  | name pattern =>
      intro t us h _
      have hequal := (h.quoted pattern).symbol (b := 0x3d) rfl rfl
      exact (hequal.word (isWord_keyword "name" (by decide)) rfl).symbol (b := 0x40) rfl rfl
  | flag word =>
      intro t us h ht
      exact (h.word hp.1 ht).symbol (b := 0x40) rfl rfl
  | position p => exact p.spells_print
  | attr a => exact a.spells_print hp
  | not p ih =>
      intro t us h _
      have hclose := h.symbol (b := 0x29) rfl rfl
      have hopen := (ih hp hclose rfl).symbol (b := 0x28) rfl rfl
      have hprint : (not p).print ++ t = ("not" : Text) ++ (0x28 :: (p.print ++ 0x29 :: t)) := by
        simp only [print, List.append_assoc]
        rfl
      simpa [hprint, tokens] using hopen.word (isWord_keyword "not" (by decide)) rfl
  | and p q ihp ihq => exact ((ihp hp.1).grouped _).joined ((ihq hp.2).grouped _) (isWord_keyword "and" (by decide))
  | or p q ihp ihq => exact ((ihp hp.1).grouped _).joined ((ihq hp.2).grouped _) (isWord_keyword "or" (by decide))

/-! ## Steps -/

/-- A test is an asterisk or a word without wildcards. -/
def Step.Readable (strict : Bool) (s : Step) : Prop :=
  (∀ w ∈ s.test, w = ("*" : Text) ∨ IsWord w ∧ ¬ Wildcard.occursIn w) ∧ ∀ p ∈ s.predicates, p.Readable strict

theorem Step.readable_written {strict : Bool} {s : Step} (h : s.Readable strict) :
    s.written = ("*" : Text) ∨ IsWord s.written ∧ ¬ Wildcard.occursIn s.written := by
  cases htest : s.test with
  | none => exact .inl (by rw [written, htest]; rfl)
  | some w => 
    rw [written, htest]
    exact h.1 w htest

theorem predicates_bracketed {strict : Bool} {ps : List Predicate} (h : ∀ p ∈ ps, p.Readable strict) :
    Predicates strict (bracketed ps) ps := by
  induction ps with
  | nil => exact .nil
  | cons p ps ih =>
      have hp := (p.expression_tokens (h p (by simp))).1
      have hps := ih fun q hq => h q (by simp [hq])
      simpa [bracketed] using hps.cons hp

theorem test_written {strict : Bool} {s : Step} (h : s.Readable strict) :
    Test (testToken s.written) s.written := by
  unfold testToken
  split
  · rename_i hstar
    exact hstar ▸ .star
  · rename_i hstar
    exact .word _ ((s.readable_written h).resolve_left hstar).2

theorem Step.single_tokens {strict : Bool} {s : Step} (h : s.Readable strict) :
    Single strict false s.tokens [s.spelled] :=
  .axis s.axis (test_written h) (predicates_bracketed h.2)

theorem lexes_bracketed {strict : Bool} {ps : List Predicate} (h : ∀ p ∈ ps, p.Readable strict) {t : Text}
    {ts : List Token} (ht : Lexes t ts) :
    Lexes (ps.flatMap (fun p => ("[" ++ p.print ++ "]" : Text)) ++ t) (bracketed ps ++ ts) := by
  induction ps with
  | nil => exact ht
  | cons p ps ih =>
      have hps := ih fun q hq => h q (by simp [hq])
      have hclose := hps.symbol (b := 0x5d) rfl rfl
      have hp := (p.spells_print (h p (by simp)) hclose rfl).symbol (b := 0x5b) rfl rfl
      have hprint : (p :: ps).flatMap (fun p => ("[" ++ p.print ++ "]" : Text)) ++ t =
          0x5b :: (p.print ++ 0x5d :: (ps.flatMap (fun p => ("[" ++ p.print ++ "]" : Text)) ++ t)) := by
        simp only [List.flatMap_cons, List.append_assoc]
        rfl
      rw [hprint]
      simpa [bracketed] using hp

theorem lexes_written {strict : Bool} {s : Step} (h : s.Readable strict) {t : Text} {ts : List Token}
    (ht : Lexes t ts) (hboundary : Boundary t) : Lexes (s.written ++ t) (testToken s.written :: ts) := by
  unfold testToken
  split
  · rename_i hstar
    rw [hstar]
    exact ht.star hboundary
  · rename_i hstar
    exact ht.word ((s.readable_written h).resolve_left hstar).1 hboundary

theorem Step.spells_print {strict : Bool} {s : Step} (h : s.Readable strict) : Spells s.print s.tokens := by
  intro t ts ht hboundary
  have htest := lexes_written h (lexes_bracketed h.2 ht) (boundary_bracketed s.predicates hboundary)
  have hmark := htest.token (b := 0x3a) (r := [0x3a]) rfl rfl
  have hname := hmark.word s.axis.isWord_name rfl
  have hprint : s.print ++ t = s.axis.name ++ (0x3a :: [0x3a] ++ (s.written ++
      (s.predicates.flatMap (fun p => ("[" ++ p.print ++ "]" : Text)) ++ t))) := by
    simp only [print, List.append_assoc]
    rfl
  rw [hprint]
  simpa [tokens] using hname

/-! ## Paths -/

theorem readable_of_predicates {strict : Bool} {ts : List Token} {ps : List Predicate}
    (h : Predicates strict ts ps) (hwords : ∀ w, .ident w ∈ ts → IsWord w) : ∀ p ∈ ps, p.Readable strict := by
  induction h with
  | nil => nofun
  | cons hp _ ih =>
      intro q hq
      rcases List.mem_cons.mp hq with rfl | hq
      · exact Predicate.readable_of_expression hp fun w hw => hwords w (by simp [hw])
      · exact ih (fun w hw => hwords w (by simp [hw])) q hq

theorem readable_below {strict deep : Bool} {s : Step} (h : s.Readable strict) :
    ∀ r ∈ below deep ++ [s], r.Readable strict := by
  intro r hr
  rcases List.mem_append.mp hr with hr | hr
  · cases deep with
    | false => cases hr
    | true =>
        obtain rfl := List.mem_singleton.mp hr
        exact ⟨nofun, nofun⟩
  · obtain rfl := List.mem_singleton.mp hr
    exact h

theorem readable_of_single {strict deep : Bool} {ts : List Token} {ss : List Step}
    (h : Single strict deep ts ss) (hwords : ∀ w, .ident w ∈ ts → IsWord w) :
    ss ≠ [] ∧ ∀ s ∈ ss, s.Readable strict := by
  cases h with
  | dot hps =>
      have hps := readable_of_predicates hps fun w hw => hwords w (by simp [hw])
      exact ⟨by simp, readable_below ⟨nofun, hps⟩⟩
  | dotDot hps =>
      have hps := readable_of_predicates hps fun w hw => hwords w (by simp [hw])
      exact ⟨by simp, readable_below ⟨nofun, hps⟩⟩
  | bare ht hps =>
      have ht := readable_of_test ht fun v hv => hwords v (by simp [hv])
      have hps := readable_of_predicates hps fun w hw => hwords w (by simp [hw])
      exact ⟨by simp, fun s hs => List.mem_singleton.mp hs ▸ ⟨ht, hps⟩⟩
  | axis axis ht hps =>
      have ht := readable_of_test ht fun v hv => hwords v (by simp [hv])
      have hps := readable_of_predicates hps fun w hw => hwords w (by simp [hw])
      exact ⟨by simp, readable_below ⟨ht, hps⟩⟩

theorem readable_of_steps {strict deep : Bool} {ts : List Token} {ss : List Step} (h : Steps strict deep ts ss)
    (hwords : ∀ w, .ident w ∈ ts → IsWord w) : ss ≠ [] ∧ ∀ s ∈ ss, s.Readable strict := by
  induction h with
  | one hs => exact readable_of_single hs hwords
  | cons hs _ _ ih =>
      obtain ⟨hne, hfirst⟩ := readable_of_single hs fun w hw => hwords w (by simp [hw])
      obtain ⟨-, hmore⟩ := ih fun w hw => hwords w (by simp [hw])
      refine ⟨by simp [hne], fun s hs => ?_⟩
      rcases List.mem_append.mp hs with hs | hs
      · exact hfirst s hs
      · exact hmore s hs

/-- Something to write: the slash of an absolute path, or a step. -/
theorem Step.readable_of_whole {strict absolute : Bool} {ts : List Token} {ss : List Step}
    (h : Whole strict ts absolute ss) (hwords : ∀ w, .ident w ∈ ts → IsWord w) :
    (absolute = true ∨ ss ≠ []) ∧ ∀ s ∈ ss, s.Readable strict := by
  cases h with
  | top => exact ⟨.inl rfl, nofun⟩
  | relative hss =>
      obtain ⟨hne, hreadable⟩ := readable_of_steps hss hwords
      exact ⟨.inr hne, hreadable⟩
  | absolute _ hss =>
      exact ⟨.inl rfl, (readable_of_steps hss fun w hw => hwords w (by simp [hw])).2⟩

theorem steps_tokens {strict : Bool} {ss : List Step} (hne : ss ≠ []) (h : ∀ s ∈ ss, s.Readable strict) :
    Steps strict false (List.intercalate [.slash] (ss.map Step.tokens)) (ss.map Step.spelled) := by
  induction ss with
  | nil => exact absurd rfl hne
  | cons s ss ih =>
      have hs := s.single_tokens (h s (by simp))
      cases ss with
      | nil => simpa using Steps.one hs
      | cons s' ss =>
          have hmore := ih (by simp) fun r hr => h r (List.mem_cons_of_mem s hr)
          simpa using Steps.cons hs .slash hmore

theorem lexes_steps {strict : Bool} {ss : List Step} (h : ∀ s ∈ ss, s.Readable strict) :
    Lexes (List.intercalate "/" (ss.map Step.print)) (List.intercalate [.slash] (ss.map Step.tokens)) ∧
      (List.intercalate ("/" : Text) (ss.map Step.print)).head? ≠ some 0x2f := by
  induction ss with
  | nil => exact ⟨lexes_nil, nofun⟩
  | cons s ss ih =>
      have hs := s.spells_print (h s (by simp))
      obtain ⟨hmore, hhead⟩ := ih fun r hr => h r (List.mem_cons_of_mem s hr)
      cases ss with
      | nil =>
          have hprint := hs lexes_nil rfl
          have hstart := s.head?_print []
          rw [List.append_nil] at hstart hprint
          rw [List.append_nil] at hprint
          simpa only [List.map_cons, List.map_nil, List.intercalate_singleton] using ⟨hprint, hstart⟩
      | cons s' ss =>
          have hslash := hs (hmore.slash hhead) rfl
          simp only [List.map_cons, List.intercalate_cons_cons, List.append_assoc]
          exact ⟨hslash, s.head?_print _⟩

theorem Path.lexes_print {strict : Bool} {p : Path} (h : ∀ s ∈ p.steps, s.Readable strict) :
    Lexes p.print p.tokens := by
  obtain ⟨hsteps, hhead⟩ := lexes_steps h
  unfold print tokens
  cases p.absolute with
  | false => exact hsteps
  | true => exact hsteps.slash hhead

/-- The tokens of a written path derive it. -/
theorem Path.whole_tokens {strict : Bool} {p : Path} (hne : p.absolute = true ∨ p.steps ≠ [])
    (h : ∀ s ∈ p.steps, s.Readable strict) : Whole strict p.tokens p.absolute (p.steps.map Step.spelled) := by
  unfold tokens
  cases hsteps : p.steps with
  | nil =>
      have habs : p.absolute = true := hne.resolve_right fun h => h hsteps
      rw [habs]
      exact .top
  | cons s ss =>
      have hss := steps_tokens (List.cons_ne_nil s ss) (hsteps ▸ h)
      cases p.absolute with
      | false => exact .relative hss
      | true => exact .absolute .slash hss

end TreeQuery
