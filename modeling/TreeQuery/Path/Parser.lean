import TreeQuery.Path.Lexer

/-!
# Reading paths

A recursive-descent reader over the tokens of a text:

    path      := '/' | ('/' | '//')? step (('/' | '//') step)*
    step      := ('.' | '..') pred* | test pred* | axis '::' test pred*
    pred      := '[' or ']'
    or        := and ('or' and)*
    and       := unary ('and' unary)*
    unary     := 'not' '(' or ')' | 'not' primary | primary
    primary   := number | 'last' '(' ')' ('-' number)? | word | string | '*'
               | '@' word (('=' | '!=' | '~=') value)? | '(' or ')'
    value     := string | word | number | '*'

Every reader returns what it read with the number of tokens it used. Looking at the next token fails
where the text cannot be cut further, so `Reader` carries how the text ends.

* `Reader.disjunction`: the expression of a predicate;
* `Reader.steps`: the steps of a path;
* `Path.parse`: a whole path from its text.
-/

namespace TreeQuery

set_option autoImplicit false

/-- How the tokens end, and whether an unknown attribute is an error. -/
structure Reader where
  strict : Bool
  ending : Ending

namespace Reader

variable (g : Reader)

/-! ## The end of the tokens -/

/-- The error `e`, which shows at the end of the tokens: a text that cannot be cut further reports
that instead. -/
def orFailed (e : SyntaxError) : SyntaxError :=
  match g.ending with
  | .done _ => e
  | .failed f => f

/-- The error where a token is missing, at the end of the text. -/
def atEnd (cause : Cause) : SyntaxError :=
  match g.ending with
  | .done pos => ⟨cause, pos⟩
  | .failed e => e

/-- Looks for another token; its absence is fine, a failure to read it is not. -/
def look (ts : List Lexeme) : Except SyntaxError Unit :=
  match ts, g.ending with
  | [], .failed e => .error e
  | _, _ => .ok ()

/-! ## Values and attributes -/

/-- The value of a number, which has to fit 64 bits. -/
def number (digits : Text) (pos : Nat) : Except SyntaxError Nat :=
  if digits.numeral ≤ 0xffffffffffffffff then .ok digits.numeral else .error ⟨.outOfRange digits, pos⟩

def closeParen : List Lexeme → Except SyntaxError Unit
  | [] => .error (g.atEnd .missingParen)
  | ⟨.closeParen, _⟩ :: _ => .ok ()
  | ⟨t, p⟩ :: _ => .error ⟨.notParen t, p⟩

def value : List Lexeme → Except SyntaxError Text
  | [] => .error (g.atEnd .missingValue)
  | ⟨.string v, _⟩ :: _ => .ok v
  | ⟨.ident v, _⟩ :: _ => .ok v
  | ⟨.number v, _⟩ :: _ => .ok v
  | ⟨.star, _⟩ :: _ => .ok "*"
  | ⟨t, p⟩ :: _ => .error ⟨.notValue t, p⟩

/-- The comparison that a token stands for. -/
def comparison? : Token → Option Comparison
  | .equal => some .equal
  | .notEqual => some .notEqual
  | .contains => some .contains
  | _ => none

variable [Regex.Library]

/-- The test of attribute `word`, found at `pos`, against a value. Equality of names is a test of
the name. -/
def attributeTest (word : Text) (pos : Nat) (c : Comparison) (v : Text) :
    Except SyntaxError Predicate :=
  let name := word.lowered
  if name = ("name" : Text) ∧ c = .equal then .ok (.name v)
  else if name = ("name" : Text) ∧ c = .notEqual then .ok (.not (.name v))
  else if g.strict ∧ ¬ isAttributeWord name then .error ⟨.unknownAttribute word, pos⟩
  else if name = ("matches" : Text) then
    match (Regex.ofText v false).checked with
    | .ok r => .ok (.attr ⟨name, c, v, some r⟩)
    | .error message => .error ⟨.invalidRegex v message, pos⟩
  else .ok (.attr ⟨name, c, v, none⟩)

/-- A word after an at sign that is not compared: a known attribute has to be there, and any other
word is a flag. -/
def loneAttribute (word : Text) : Predicate :=
  if isAttributeWord word.lowered then .attr ⟨word.lowered, .present, [], none⟩ else .flag word

/-- What follows an at sign at `pos`. -/
def afterAt (pos : Nat) : List Lexeme → Except SyntaxError (Predicate × Nat)
  | [] => .error (g.orFailed ⟨.missingAttribute, pos⟩)
  | ⟨.ident word, wordPos⟩ :: r => do
    g.look r
    match r.head?.bind (comparison? ·.token) with
    | none => return (loneAttribute word, 1)
    | some c => do
      let v ← g.value r.tail
      let p ← g.attributeTest word wordPos c v
      return (p, 3)
  | _ => .error ⟨.missingAttribute, pos⟩

/-- What follows the word `last` with its parentheses: how far back from the last one. -/
def fromLast : List Lexeme → Except SyntaxError (Predicate × Nat)
  | ⟨.minus, _⟩ :: r =>
    match r with
    | ⟨.number digits, p⟩ :: _ => do
      let n ← number digits p
      return (.position ⟨true, n⟩, 2)
    | ⟨_, p⟩ :: _ => .error ⟨.missingNumber, p⟩
    | [] => .error (g.atEnd .missingNumber)
  | ts => do
    g.look ts
    return (.position ⟨true, 0⟩, 0)

/-- A word that stands alone: a flag or a name. -/
def loneWord (word : Text) : Predicate :=
  if isFlagWord word.lowered then .flag word else .name word

/-! ## Expressions -/

mutual

def disjunction (ts : List Lexeme) : Except SyntaxError (Predicate × Nat) := do
  let (p, n) ← conjunction ts
  let (q, m) ← moreDisjuncts p (ts.drop n)
  return (q, n + m)
termination_by 6 * ts.length + 5

/-- Further operands of `or`, which joins from the left. -/
def moreDisjuncts (p : Predicate) : List Lexeme → Except SyntaxError (Predicate × Nat)
  | [] => do
    g.look []
    return (p, 0)
  | t :: r =>
    if t.token = .ident "or" then do
      let (q, n) ← conjunction r
      let (q, m) ← moreDisjuncts (.or p q) (r.drop n)
      return (q, n + m + 1)
    else .ok (p, 0)
termination_by ts => 6 * ts.length + 4

def conjunction (ts : List Lexeme) : Except SyntaxError (Predicate × Nat) := do
  let (p, n) ← unary ts
  let (q, m) ← moreConjuncts p (ts.drop n)
  return (q, n + m)
termination_by 6 * ts.length + 3

/-- Further operands of `and`, which joins from the left. -/
def moreConjuncts (p : Predicate) : List Lexeme → Except SyntaxError (Predicate × Nat)
  | [] => do
    g.look []
    return (p, 0)
  | t :: r =>
    if t.token = .ident "and" then do
      let (q, n) ← unary r
      let (q, m) ← moreConjuncts (.and p q) (r.drop n)
      return (q, n + m + 1)
    else .ok (p, 0)
termination_by ts => 6 * ts.length + 2

/-- An operand, perhaps after `not`. -/
def unary : List Lexeme → Except SyntaxError (Predicate × Nat)
  | [] => primary []
  | t :: r =>
    if t.token = .ident "not" then
      match r with
      | [] => .error (g.orFailed ⟨.missingOperand, t.pos⟩)
      | u :: r' =>
        match u.token with
        | .openParen => do
          let (p, n) ← disjunction r'
          g.closeParen (r'.drop n)
          return (.not p, n + 3)
        | .closeBracket => .error ⟨.missingOperand, t.pos⟩
        | .closeParen => .error ⟨.missingOperand, t.pos⟩
        | _ => do
          let (p, n) ← primary (u :: r')
          return (.not p, n + 1)
    else primary (t :: r)
termination_by ts => 6 * ts.length + 1

def primary : List Lexeme → Except SyntaxError (Predicate × Nat)
  | [] => .error (g.atEnd .unbalanced)
  | t :: r =>
    match t.token with
    | .number digits => do
      let n ← number digits t.pos
      return (.position ⟨false, n⟩, 1)
    | .ident word =>
      if word = ("last" : Text) then do
        g.look r
        if r.head?.any (·.token == .openParen) then
          g.closeParen r.tail
          let (p, n) ← g.fromLast (r.drop 2)
          return (p, n + 3)
        else return (loneWord word, 1)
      else .ok (loneWord word, 1)
    | .string v => .ok (.name v, 1)
    | .star => .ok (.name "*", 1)
    | .atSign => do
      let (p, n) ← g.afterAt t.pos r
      return (p, n + 1)
    | .openParen => do
      let (p, n) ← disjunction r
      g.closeParen (r.drop n)
      return (p, n + 2)
    | found => .error ⟨.unexpected found, t.pos⟩
termination_by ts => 6 * ts.length

end

/-! ## Steps -/

/-- The predicates of a step, each in brackets. -/
def predicates : List Lexeme → Except SyntaxError (List Predicate × Nat)
  | [] => do
    g.look []
    return ([], 0)
  | t :: r =>
    if t.token = .openBracket then
      if r.head?.any (·.token == .closeBracket) then .error ⟨.emptyPredicate, t.pos⟩
      else do
        let (p, n) ← g.disjunction r
        match r[n]? with
        | none => .error (g.orFailed ⟨.unbalanced, t.pos⟩)
        | some u =>
          if u.token = .closeBracket then do
            let (ps, m) ← predicates (r.drop (n + 1))
            return (p :: ps, n + m + 2)
          else .error ⟨.notBracket u.token, u.pos⟩
    else .ok ([], 0)
termination_by ts => ts.length

/-- A step after its axis and test. -/
def stepWith (before : List Step) (axis : Axis) (test : Option Text) (ts : List Lexeme) :
    Except SyntaxError (List Step × Nat) := do
  let (ps, n) ← g.predicates ts
  return (before ++ [⟨axis, test, ps⟩], n)

/-- The word `word` at `pos` as a test, which may hold no wildcards. -/
def checkTest (word : Text) (pos : Nat) : Except SyntaxError Unit :=
  if Wildcard.occursIn word then .error ⟨.wildcardTest word, pos⟩ else .ok ()

/-- The test after an axis is a word or an asterisk. -/
def testAfter (axis : Axis) (t : Lexeme) : Except SyntaxError Text :=
  match t.token with
  | .star => .ok "*"
  | .ident word => (checkTest word t.pos).map fun _ => word
  | _ => .error ⟨.emptyTest axis, t.pos⟩

/-- The step that starts with `t`, and how many of the tokens after it belong to it. After a double
slash, `deep`, a bare test looks at all descendants, and any other step starts from them. -/
def step (deep : Bool) (t : Lexeme) (r : List Lexeme) : Except SyntaxError (List Step × Nat) :=
  let before : List Step := if deep then [⟨.descendantOrSelf, none, []⟩] else []
  let axis : Axis := if deep then .descendant else .child
  match t.token with
  | .dot => g.stepWith before .self none r
  | .dotDot => g.stepWith before .parent none r
  | .star => g.stepWith [] axis (some "*") r
  | .ident word => do
    g.look r
    if r.head?.any (·.token == .axisMark) then
      match Axis.ofName? word, r.tail with
      | none, _ => .error ⟨.unknownAxis word, t.pos⟩
      | some axis, [] => .error (g.atEnd (.emptyTest axis))
      | some axis, u :: r' => do
        let test ← testAfter axis u
        let (ss, n) ← g.stepWith before axis (some test) r'
        return (ss, n + 2)
    else do
      checkTest word t.pos
      g.stepWith [] axis (some word) r
  | found => .error ⟨.unexpected found, t.pos⟩

/-- Whether a token separates steps, and if so whether the next step is deep. -/
def separator? : Token → Option Bool
  | .slash => some false
  | .doubleSlash => some true
  | _ => none

def steps (deep : Bool) : List Lexeme → Except SyntaxError (List Step)
  | [] => .error (g.atEnd .missingStep)
  | t :: r => do
    let (ss, n) ← g.step deep t r
    match r[n]? with
    | none => do
      g.look []
      return ss
    | some u =>
      match separator? u.token with
      | none => .error ⟨.unexpected u.token, u.pos⟩
      | some deep =>
        if (r.drop (n + 1)).isEmpty then .error (g.orFailed ⟨.trailing u.token, u.pos⟩)
        else do
          let more ← steps deep (r.drop (n + 1))
          return ss ++ more
termination_by ts => ts.length

/-- Whether the path is absolute, and its steps. -/
def path : List Lexeme → Except SyntaxError (Bool × List Step)
  | [] => .error (g.atEnd .emptyPath)
  | t :: r =>
    match separator? t.token, r with
    | none, _ => (g.steps false (t :: r)).map (false, ·)
    | some false, [] => (g.look []).map fun _ => (true, [])
    | some true, [] => .error (g.orFailed ⟨.trailing t.token, t.pos⟩)
    | some deep, r => (g.steps deep r).map (true, ·)

end Reader

/-- Reads a path; `strict` refuses comparisons of unknown attributes. -/
def Path.parse [Regex.Library] (strict : Bool) (input : Text) : Except SyntaxError Path :=
  let (ts, ending) := lexemes 0 input
  (Reader.path ⟨strict, ending⟩ ts).map fun (absolute, steps) => ⟨input, absolute, steps⟩

end TreeQuery
