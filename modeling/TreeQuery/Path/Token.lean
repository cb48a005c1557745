import TreeQuery.Path.Basic

/-!
# Tokens and syntax errors of paths

* `Token`, `Lexeme`: a token and where it starts;
* `Cause`, `SyntaxError`: why a text is no path and where that shows;
* `SyntaxError.message`: the report, which quotes the text and points into it.
-/

namespace TreeQuery

set_option autoImplicit false

inductive Token where
  | slash | doubleSlash | dot | dotDot | axisMark | star
  | openBracket | closeBracket | openParen | closeParen
  | atSign | equal | notEqual | contains | minus
  | ident (word : Text)
  | string (value : Text)
  | number (digits : Text)
  | endOfText
deriving DecidableEq

namespace Token

/-- The name of the token's kind, with its value if it has one. -/
def label : Token → Text
  | slash => "SLASH"
  | doubleSlash => "DSLASH"
  | dot => "DOT"
  | dotDot => "DOTDOT"
  | axisMark => "AXIS_SEP"
  | star => "STAR"
  | openBracket => "LBRACKET"
  | closeBracket => "RBRACKET"
  | openParen => "LPAREN"
  | closeParen => "RPAREN"
  | atSign => "AT"
  | equal => "EQUAL"
  | notEqual => "NOT_EQUAL"
  | contains => "CONTAINS"
  | minus => "MINUS"
  | ident word => "IDENT(" ++ word ++ ")"
  | string value => "STRING(" ++ value ++ ")"
  | number digits => "NUMBER(" ++ digits ++ ")"
  | endOfText => "END_REACHED"

/-- The token as it is written; a string is put in plain quotes. -/
def symbol : Token → Text
  | slash => "/"
  | doubleSlash => "//"
  | dot => "."
  | dotDot => ".."
  | axisMark => "::"
  | star => "*"
  | openBracket => "["
  | closeBracket => "]"
  | openParen => "("
  | closeParen => ")"
  | atSign => "@"
  | equal => "="
  | notEqual => "!="
  | contains => "~="
  | minus => "-"
  | ident word => word
  | string value => "'" ++ value ++ "'"
  | number digits => digits
  | endOfText => "<EOF>"

end Token

/-- A token and the position of its first byte. -/
structure Lexeme where
  token : Token
  pos : Nat
deriving DecidableEq

/-! ## Syntax errors -/

inductive Cause where
  /-- A single colon. -/
  | loneColon
  /-- An exclamation mark or tilde without an equals sign. -/
  | missingEqual (b : UInt8)
  | unterminated (quote : UInt8)
  | strayByte (b : UInt8)
  | emptyPath
  | trailing (separator : Token)
  | unexpected (found : Token)
  | missingParen
  | notParen (found : Token)
  | outOfRange (digits : Text)
  | unknownAxis (word : Text)
  | emptyTest (axis : Axis)
  | wildcardTest (word : Text)
  | missingStep
  | emptyPredicate
  | unbalanced
  | notBracket (found : Token)
  | missingOperand
  | missingNumber
  | missingAttribute
  | unknownAttribute (word : Text)
  | invalidRegex (value message : Text)
  | missingValue
  | notValue (found : Token)
deriving DecidableEq

def Cause.message : Cause → Text
  | loneColon => "Expected '::' after axis name"
  | missingEqual b => "Expected '=' after '" ++ [b] ++ "'"
  | unterminated quote => "Unterminated string, expected " ++ [quote]
  | strayByte b => "Unexpected character '" ++ [b] ++ "'"
  | emptyPath => "Empty path"
  | trailing separator => "Trailing '" ++ separator.symbol ++ "'"
  | unexpected found => "Unexpected '" ++ found.symbol ++ "'"
  | missingParen => "Expected ')' before end"
  | notParen found => "Expected ')', found '" ++ found.symbol ++ "'"
  | outOfRange digits => "Number '" ++ digits ++ "' is out of range"
  | unknownAxis word => "Unknown axis '" ++ word ++ "'"
  | emptyTest axis => "Empty node test after '" ++ axis.name ++ "::'"
  | wildcardTest word => "Wildcards are not allowed in node test '" ++ word ++ "'"
  | missingStep => "Expected a path step"
  | emptyPredicate => "Empty predicate"
  | unbalanced => "Unbalanced '['"
  | notBracket found => "Expected ']', found '" ++ found.symbol ++ "'"
  | missingOperand => "Expected an operand after 'not'"
  | missingNumber => "Expected a number after 'last()-'"
  | missingAttribute => "Expected an attribute name after '@'"
  | unknownAttribute word => "Unknown attribute '@" ++ word ++ "'"
  | invalidRegex value message => "Invalid regular expression '" ++ value ++ "': " ++ message
  | missingValue => "Expected a value before end"
  | notValue found => "Expected a value, found '" ++ found.symbol ++ "'"

/-- A cause and the position that shows it. -/
structure SyntaxError where
  cause : Cause
  pos : Nat
deriving DecidableEq

/-- The report on the text `input`: the cause, the text itself and a caret below the position. -/
def SyntaxError.message (e : SyntaxError) (input : Text) : Text :=
  e.cause.message ++ " in path:\n" ++ input.context e.pos 0

end TreeQuery
