import TreeQuery.Text.Basic

/-!
# Regular expressions

The syntax tree of a regular expression over bytes:

* `ByteClass`, `SetItem`, `ByteSet`: what a bracketed set may hold, and membership in it;
* `Pattern`: literals, sets, anchors, groups, look-ahead, back-references and counted repeats.
-/

namespace TreeQuery.Regex

set_option autoImplicit false

/-! ## Sets of bytes -/

/-- The classes that have a name or an escape of their own. -/
inductive ByteClass where
  | alpha | digit | alnum | upper | lower | space | punct | xdigit | word
deriving DecidableEq

def ByteClass.has : ByteClass → UInt8 → Bool
  | .alpha, b => Byte.isAlpha b
  | .digit, b => Byte.isDigit b
  | .alnum, b => Byte.isAlnum b
  | .upper, b => Byte.isUpper b
  | .lower, b => Byte.isLower b
  | .space, b => Byte.isSpace b
  | .punct, b => Byte.isPunct b
  | .xdigit, b => Byte.isHex b
  | .word, b => Byte.isAlnum b || b == 0x5f

/-- The class called `name` between the colons of a set. -/
def ByteClass.ofName? (name : Text) : Option ByteClass :=
  [(("alpha" : Text), alpha), ("digit", digit), ("alnum", alnum), ("upper", upper), ("lower", lower),
    ("space", space), ("punct", punct), ("xdigit", xdigit)].lookup name

/-- One entry of a set: a range of bytes, or a class or its complement. -/
inductive SetItem where
  | range (lo hi : UInt8)
  | cls (c : ByteClass) (negated : Bool)
deriving DecidableEq

def SetItem.has : SetItem → UInt8 → Bool
  | .range lo hi, b => lo ≤ b && b ≤ hi
  | .cls c negated, b => c.has b != negated

/-- A bracketed set, or its complement. -/
structure ByteSet where
  items : List SetItem
  negated : Bool
deriving DecidableEq

/-- Membership; ignoring case, a byte is listed if either of its cases is. -/
def ByteSet.has (s : ByteSet) (ignoreCase : Bool) (b : UInt8) : Bool :=
  let listed := fun x => s.items.any (·.has x)
  (listed b || (ignoreCase && (listed (Byte.lower b) || listed (Byte.upper b)))) != s.negated

/-! ## Patterns -/

inductive Pattern where
  /-- The empty text. -/
  | empty
  | byte (b : UInt8)
  /-- Any single byte, line breaks included. -/
  | any
  | set (s : ByteSet)
  | lineStart
  | lineEnd
  /-- A word boundary, or a place that is none. -/
  | wordEdge (negated : Bool)
  /-- What the numbered group last matched. -/
  | backref (group : Nat)
  | seq (p q : Pattern)
  | alt (p q : Pattern)
  | group (number : Nat) (p : Pattern)
  /-- Looks ahead without moving. -/
  | look (negated : Bool) (p : Pattern)
  /-- At least `least` and at most `most` times `p`; a reluctant repeat prefers fewer. -/
  | iterate (least : Nat) (most : Option Nat) (reluctant : Bool) (p : Pattern)
deriving DecidableEq

end TreeQuery.Regex
