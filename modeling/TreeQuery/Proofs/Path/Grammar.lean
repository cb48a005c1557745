import TreeQuery.Path.Parser

/-!
# The grammar of paths

What a sequence of tokens says, as derivations and without a reader:

    path      := '/' | ('/' | '//')? step (('/' | '//') step)*
    step      := ('.' | '..') pred* | test pred* | axis '::' test pred*
    pred      := '[' or ']'
    or        := and | or 'or' and
    and       := unary | and 'and' unary
    unary     := 'not' '(' or ')' | 'not' primary | primary
    primary   := number | 'last' '(' ')' ('-' number)? | word | string | '*'
               | '@' word (('=' | '!=' | '~=') value)? | '(' or ')'
    value     := string | word | number | '*'

The words `not`, `and`, `or` and `last` are also ordinary words. The primary after a bare `not` does not
start with a parenthesis, and a unary expression without `not` does not start with that word.

* `Expression`: the four levels of expressions, with the predicate that each derivation denotes;
* `Predicates`, `Steps`: bracketed predicates and the steps of a path;
* `Whole`: whole paths;
* `tokens?`: the tokens of a text that can be cut to its end.
-/

namespace TreeQuery.Grammar

set_option autoImplicit false

/-! ## Values and attributes -/

/-- The tokens that may stand for a value. -/
inductive Value : Token → Text → Prop where
  | string (v : Text) : Value (.string v) v
  | word (v : Text) : Value (.ident v) v
  | number (v : Text) : Value (.number v) v
  | star : Value .star "*"

/-- The signs of the comparisons. -/
inductive Sign : Token → Comparison → Prop where
  | equal : Sign .equal .equal
  | notEqual : Sign .notEqual .notEqual
  | contains : Sign .contains .contains

theorem Sign.ne_present {t : Token} {c : Comparison} (h : Sign t c) : c ≠ .present := by
  cases h <;> nofun

variable [Regex.Library]

/-- What the comparison of the attribute `word` with a value says. Names are compared by their own kind of
predicate, the value for `matches` has to be a regular expression, and where the grammar is strict the
attribute has to be known. -/
inductive Compared (strict : Bool) (word : Text) : Comparison → Text → Predicate → Prop where
  | name (v : Text) : word.lowered = ("name" : Text) → Compared strict word .equal v (.name v)
  | notName (v : Text) : word.lowered = ("name" : Text) → Compared strict word .notEqual v (.not (.name v))
  | regex (c : Comparison) (v : Text) (r : Regex) : word.lowered = ("matches" : Text) →
      (Regex.ofText v false).checked = .ok r → Compared strict word c v (.attr ⟨word.lowered, c, v, some r⟩)
  | plain (c : Comparison) (v : Text) : (word.lowered = ("name" : Text) → c = .contains) →
      word.lowered ≠ ("matches" : Text) → (strict → isAttributeWord word.lowered) →
      Compared strict word c v (.attr ⟨word.lowered, c, v, none⟩)

/-! ## Expressions -/

/-- The levels of expressions, the loosest first. -/
inductive Level where
  | disjunction | conjunction | unary | primary
deriving DecidableEq

/-- Positions fit 64 bits. -/
def Fits (digits : Text) : Prop := digits.numeral ≤ 0xffffffffffffffff

/-- The tokens are an expression of the level and denote the predicate. -/
inductive Expression (strict : Bool) : Level → List Token → Predicate → Prop where
  | position (digits : Text) : Fits digits →
      Expression strict .primary [.number digits] (.position ⟨false, digits.numeral⟩)
  | last : Expression strict .primary [.ident "last", .openParen, .closeParen] (.position ⟨true, 0⟩)
  | lastBut (digits : Text) : Fits digits →
      Expression strict .primary [.ident "last", .openParen, .closeParen, .minus, .number digits]
        (.position ⟨true, digits.numeral⟩)
  | flagWord (word : Text) : isFlagWord word.lowered → Expression strict .primary [.ident word] (.flag word)
  | word (word : Text) : ¬ isFlagWord word.lowered → Expression strict .primary [.ident word] (.name word)
  | string (v : Text) : Expression strict .primary [.string v] (.name v)
  | star : Expression strict .primary [.star] (.name "*")
  | present (word : Text) : isAttributeWord word.lowered →
      Expression strict .primary [.atSign, .ident word] (.attr ⟨word.lowered, .present, [], none⟩)
  | flag (word : Text) : ¬ isAttributeWord word.lowered →
      Expression strict .primary [.atSign, .ident word] (.flag word)
  | compared {sign value : Token} {c : Comparison} {v : Text} {p : Predicate} (word : Text) : Sign sign c →
      Value value v → Compared strict word c v p →
      Expression strict .primary [.atSign, .ident word, sign, value] p
  | group {ts : List Token} {p : Predicate} : Expression strict .disjunction ts p →
      Expression strict .primary (.openParen :: ts ++ [.closeParen]) p
  | notGroup {ts : List Token} {p : Predicate} : Expression strict .disjunction ts p →
      Expression strict .unary (.ident "not" :: .openParen :: ts ++ [.closeParen]) (.not p)
  | not {ts : List Token} {p : Predicate} : Expression strict .primary ts p → ts.head? ≠ some .openParen →
      Expression strict .unary (.ident "not" :: ts) (.not p)
  | primary {ts : List Token} {p : Predicate} : Expression strict .primary ts p →
      ts.head? ≠ some (.ident "not") → Expression strict .unary ts p
  | unary {ts : List Token} {p : Predicate} : Expression strict .unary ts p →
      Expression strict .conjunction ts p
  | and {ts us : List Token} {p q : Predicate} : Expression strict .conjunction ts p →
      Expression strict .unary us q → Expression strict .conjunction (ts ++ .ident "and" :: us) (.and p q)
  | conjunction {ts : List Token} {p : Predicate} : Expression strict .conjunction ts p →
      Expression strict .disjunction ts p
  | or {ts us : List Token} {p q : Predicate} : Expression strict .disjunction ts p →
      Expression strict .conjunction us q → Expression strict .disjunction (ts ++ .ident "or" :: us) (.or p q)

theorem Expression.ne_nil {strict : Bool} {level : Level} {ts : List Token} {p : Predicate}
    (h : Expression strict level ts p) : ts ≠ [] := by
  induction h with
  | primary _ _ ih | unary _ ih | conjunction _ ih => exact ih
  | _ => simp

theorem Expression.head?_ne_closeBracket {strict : Bool} {level : Level} {ts : List Token} {p : Predicate}
    (h : Expression strict level ts p) : ts.head? ≠ some .closeBracket := by
  induction h with
  | primary _ _ ih | unary _ ih | conjunction _ ih => exact ih
  | and hp _ ih | or hp _ ih =>
      obtain ⟨t, ts, rfl⟩ := List.exists_cons_of_ne_nil hp.ne_nil
      exact ih
  | _ => simp

/-! ## Steps -/

/-- Expressions in brackets, one after the other. -/
inductive Predicates (strict : Bool) : List Token → List Predicate → Prop where
  | nil : Predicates strict [] []
  | cons {ts us : List Token} {p : Predicate} {ps : List Predicate} : Expression strict .disjunction ts p →
      Predicates strict us ps → Predicates strict (.openBracket :: ts ++ .closeBracket :: us) (p :: ps)

theorem Predicates.head? {strict : Bool} {ts : List Token} {ps : List Predicate} (h : Predicates strict ts ps) :
    ∀ t ∈ ts.head?, t = .openBracket := by
  cases h with
  | nil => exact nofun
  | cons => rintro t ⟨⟩; rfl

/-- Tests of a tag: an asterisk, or a word without wildcards. -/
inductive Test : Token → Text → Prop where
  | star : Test .star "*"
  | word (word : Text) : ¬ Wildcard.occursIn word → Test (.ident word) word

/-- A double slash before a step that names its axis starts the step from all nodes below. -/
def below (deep : Bool) : List Step := if deep then [⟨.descendantOrSelf, none, []⟩] else []

/-- The axis of a step that names none. -/
def bareAxis (deep : Bool) : Axis := if deep then .descendant else .child

/-- One step of the text, after a double slash if `deep`, and the steps that it stands for. -/
inductive Single (strict deep : Bool) : List Token → List Step → Prop where
  | dot {ts : List Token} {ps : List Predicate} : Predicates strict ts ps →
      Single strict deep (.dot :: ts) (below deep ++ [⟨.self, none, ps⟩])
  | dotDot {ts : List Token} {ps : List Predicate} : Predicates strict ts ps →
      Single strict deep (.dotDot :: ts) (below deep ++ [⟨.parent, none, ps⟩])
  | bare {ts : List Token} {ps : List Predicate} {t : Token} {test : Text} : Test t test →
      Predicates strict ts ps → Single strict deep (t :: ts) [⟨bareAxis deep, some test, ps⟩]
  | axis {ts : List Token} {ps : List Predicate} {t : Token} {test : Text} (axis : Axis) : Test t test →
      Predicates strict ts ps →
      Single strict deep (.ident axis.name :: .axisMark :: t :: ts) (below deep ++ [⟨axis, some test, ps⟩])

/-- What separates steps, and whether the step after it is deep. -/
inductive Separator : Token → Bool → Prop where
  | slash : Separator .slash false
  | doubleSlash : Separator .doubleSlash true

/-- Steps with separators between them; the first comes after a double slash if `deep`. -/
inductive Steps (strict : Bool) : Bool → List Token → List Step → Prop where
  | one {deep : Bool} {ts : List Token} {ss : List Step} : Single strict deep ts ss → Steps strict deep ts ss
  | cons {deep deeper : Bool} {ts us : List Token} {ss more : List Step} {separator : Token} :
      Single strict deep ts ss → Separator separator deeper → Steps strict deeper us more →
      Steps strict deep (ts ++ separator :: us) (ss ++ more)

/-! ## Paths -/

/-- The tokens are a path: whether it is absolute, and its steps. -/
inductive Whole (strict : Bool) : List Token → Bool → List Step → Prop where
  | top : Whole strict [.slash] true []
  | relative {ts : List Token} {ss : List Step} : Steps strict false ts ss → Whole strict ts false ss
  | absolute {deep : Bool} {ts : List Token} {ss : List Step} {separator : Token} :
      Separator separator deep → Steps strict deep ts ss → Whole strict (separator :: ts) true ss

/-- The tokens of a text, if it can be cut into tokens to its end. -/
def tokens? (input : Text) : Option (List Token) :=
  match lexemes 0 input with
  | (ls, .done _) => some (ls.map Lexeme.token)
  | (_, .failed _) => none

end TreeQuery.Grammar
