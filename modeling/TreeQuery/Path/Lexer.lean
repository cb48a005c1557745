import TreeQuery.Path.Token

/-!
# Cutting a text into tokens

* `readToken`: the token that starts with a given byte, and how many further bytes it takes;
* `scan`: skips blanks and reads one token;
* `lexemes`: all tokens of a text, up to its end or the first error;
* `Lexer`: a cursor that reads one token at a time and can hold one back.
-/

namespace TreeQuery

set_option autoImplicit false

/-! ## Single tokens -/

/-- The value of a string up to the closing quote, and the bytes used with it; a backslash is dropped
and the byte after it kept. -/
def readString? (quote : UInt8) : Text → Option (Text × Nat)
  | [] => none
  | 0x5c :: [] => none
  | 0x5c :: b :: r => (readString? quote r).map fun (v, n) => (b :: v, n + 2)
  | b :: r =>
    if b = quote then some ([], 1) else (readString? quote r).map fun (v, n) => (b :: v, n + 1)

/-- Bytes that start an identifier. -/
def startsIdent (b : UInt8) : Bool := Byte.isAlpha b || b == 0x5f || Wildcard.isWild b

/-- The rest of an identifier; a dot belongs to it if a letter or digit follows. -/
def readIdent : Text → Text
  | [] => []
  | b :: r =>
    if Byte.isIdent b || Wildcard.isWild b then b :: readIdent r
    else if b = '.' ∧ r.head?.any Byte.isAlnum then b :: readIdent r
    else []

/-- The token that starts with `b` and how many of the bytes `r` after it belong to it. An error
says how many of them were passed before it showed. -/
def readToken (b : UInt8) (r : Text) : Except (Cause × Nat) (Token × Nat) :=
  if b = '/' then .ok (if r.head? = some 0x2f then (.doubleSlash, 1) else (.slash, 0))
  else if b = '.' then .ok (if r.head? = some 0x2e then (.dotDot, 1) else (.dot, 0))
  else if b = ':' then if r.head? = some 0x3a then .ok (.axisMark, 1) else .error (.loneColon, 0)
  else if b = '!' then if r.head? = some 0x3d then .ok (.notEqual, 1) else .error (.missingEqual b, 0)
  else if b = '~' then if r.head? = some 0x3d then .ok (.contains, 1) else .error (.missingEqual b, 0)
  else if b = '[' then .ok (.openBracket, 0)
  else if b = ']' then .ok (.closeBracket, 0)
  else if b = '(' then .ok (.openParen, 0)
  else if b = ')' then .ok (.closeParen, 0)
  else if b = '@' then .ok (.atSign, 0)
  else if b = '=' then .ok (.equal, 0)
  else if b = '-' then .ok (.minus, 0)
  else if b = 0x27 ∨ b = 0x22 then
    match readString? b r with
    | some (value, n) => .ok (.string value, n)
    | none => .error (.unterminated b, r.length)
  else if Byte.isDigit b then
    let more := r.takeWhile Byte.isDigit
    .ok (.number (b :: more), more.length)
  else if startsIdent b then
    let word := b :: readIdent r
    .ok (if word = ("*" : Text) then .star else .ident word, word.length - 1)
  else .error (.strayByte b, 0)

/-! ## All tokens -/

/-- One token after any blanks, or an error, and the position after it; the text starts at `pos`. -/
def scan (pos : Nat) : Text → Except SyntaxError Lexeme × Nat
  | [] => (.ok ⟨.endOfText, pos⟩, pos)
  | b :: r =>
    if Byte.isSpace b then scan (pos + 1) r
    else match readToken b r with
      | .ok (token, n) => (.ok ⟨token, pos⟩, pos + 1 + n)
      | .error (cause, n) => (.error ⟨cause, pos⟩, pos + 1 + n)

/-- How a text ends: at a position, or in an error. -/
inductive Ending where
  | done (pos : Nat)
  | failed (e : SyntaxError)
deriving DecidableEq

/-- The tokens of a text that starts at `pos`, and how it ends. -/
def lexemes (pos : Nat) : Text → List Lexeme × Ending
  | [] => ([], .done pos)
  | b :: r =>
    if Byte.isSpace b then lexemes (pos + 1) r
    else match readToken b r with
      | .error (cause, _) => ([], .failed ⟨cause, pos⟩)
      | .ok (token, n) =>
        let (ls, ending) := lexemes (pos + 1 + n) (r.drop n)
        (⟨token, pos⟩ :: ls, ending)
termination_by t => t.length
decreasing_by all_goals simp only [List.length_cons, List.length_drop]; omega

/-! ## One token at a time -/

/-- A cursor in a text, and a token held back. -/
structure Lexer where
  input : Text
  pos : Nat
  held : Option Lexeme
deriving DecidableEq

namespace Lexer

def start (input : Text) : Lexer := ⟨input, 0, none⟩

/-- The held token, or the next one of the text. After an error the cursor stays where it showed. -/
def next (l : Lexer) : Except SyntaxError Lexeme × Lexer :=
  match l.held with
  | some lexeme => (.ok lexeme, { l with held := none })
  | none =>
    let (result, pos) := scan l.pos (l.input.drop l.pos)
    (result, { l with pos := pos })

/-- The next token, which is then held. -/
def peek (l : Lexer) : Except SyntaxError Lexeme × Lexer :=
  match l.next with
  | (.ok lexeme, l) => (.ok lexeme, { l with held := some lexeme })
  | (.error e, l) => (.error e, l)

/-- Holds a token back, unless one is held already; there may be no token to hold. -/
def push? (l : Lexer) (lexeme : Option Lexeme) : Option Lexer :=
  if l.held.isSome then none else some { l with held := lexeme }

end Lexer

end TreeQuery
