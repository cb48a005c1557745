/-!
# Texts as byte strings

Paths, tags, names and source texts are sequences of bytes: lengths and positions count bytes, and
only the ASCII letters have case.

* `Text`, with coercions from string and character literals;
* byte classes (`isSpace`, `isAlnum`, `isIdent`) and case folding (`lower`, `lowered`);
* comparison ignoring case, substring search, prefix and suffix tests;
* decimal numerals (`ofNat`, `numeral`).
-/

namespace TreeQuery

set_option autoImplicit false

/-- A byte string. -/
abbrev Text := List UInt8

/-! ## Literals -/

instance coeChar : Coe Char UInt8 := ⟨Char.toUInt8⟩

/-- The bytes of an ASCII literal. -/
def Text.ofString (s : String) : Text := s.toList.map Char.toUInt8

instance coeString : Coe String Text := ⟨Text.ofString⟩

namespace Byte

/-! ## Byte classes -/

def isUpper (b : UInt8) : Bool := 0x41 ≤ b && b ≤ 0x5a

def isLower (b : UInt8) : Bool := 0x61 ≤ b && b ≤ 0x7a

def isAlpha (b : UInt8) : Bool := isUpper b || isLower b

def isDigit (b : UInt8) : Bool := 0x30 ≤ b && b ≤ 0x39

def isAlnum (b : UInt8) : Bool := isAlpha b || isDigit b

/-- Space, tab, line feed, vertical tab, form feed and carriage return. -/
def isSpace (b : UInt8) : Bool := b == 0x20 || (0x09 ≤ b && b ≤ 0x0d)

/-- Line breaks are line feed, carriage return and form feed. -/
def isBreak (b : UInt8) : Bool := b == 0x0a || b == 0x0d || b == 0x0c

/-- Bytes of an identifier. -/
def isIdent (b : UInt8) : Bool := isAlnum b || b == 0x5f || b == 0x2d

/-- Printable ASCII that is neither alphanumeric nor a space. -/
def isPunct (b : UInt8) : Bool := 0x21 ≤ b && b ≤ 0x7e && !isAlnum b

def isHex (b : UInt8) : Bool :=
  isDigit b || (0x41 ≤ b && b ≤ 0x46) || (0x61 ≤ b && b ≤ 0x66)

/-! ## Case -/

def lower (b : UInt8) : UInt8 := if isUpper b then b + 0x20 else b

def upper (b : UInt8) : UInt8 := if isLower b then b - 0x20 else b

/-- Equality of bytes, ignoring case if asked. -/
def same (ignoreCase : Bool) (a b : UInt8) : Bool := if ignoreCase then lower a == lower b else a == b

end Byte

namespace Text

def lowered (t : Text) : Text := t.map Byte.lower

/-- Equality ignoring ASCII case. -/
def sameFolded (s t : Text) : Bool := s.lowered == t.lowered

/-! ## Substrings -/

/-- `needle` occurs somewhere in the text. -/
def contains (needle : Text) : Text → Bool
  | [] => needle.isEmpty
  | b :: t => needle.isPrefixOf (b :: t) || contains needle t

/-- `needle` occurs somewhere in the text, ignoring ASCII case. -/
def containsFolded (needle t : Text) : Bool := contains needle.lowered t.lowered

/-- The part before the first NUL byte. -/
def beforeNul (t : Text) : Text := t.takeWhile (· != 0)

/-- The first text, or the second if the first is empty. -/
def orElse (first second : Text) : Text := if first.isEmpty then second else first

/-- The texts with a blank between neighbours; no blank is written while nothing has been. -/
def joinBlank (ts : List Text) : Text :=
  ts.foldl (fun done t => if done.isEmpty then t else done ++ 0x20 :: t) []

/-! ## Order -/

/-- Byte order: the first difference decides, and a proper prefix comes first. -/
def before : Text → Text → Bool
  | [], [] => false
  | [], _ :: _ => true
  | _ :: _, [] => false
  | a :: s, b :: t => a < b || (a == b && before s t)

/-- Adds a text to a list in byte order, unless it is there. -/
def insertOrdered (t : Text) : List Text → List Text
  | [] => [t]
  | u :: us => if t == u then u :: us else if t.before u then t :: u :: us else u :: insertOrdered t us

/-- The distinct members of a list in byte order. -/
def ordered (ts : List Text) : List Text := ts.foldr insertOrdered []

/-! ## Numerals -/

/-- The decimal numeral of a number. -/
def ofNat (n : Nat) : Text := (Nat.toDigits 10 n).map Char.toUInt8

/-- The value of a string of decimal digits. -/
def numeral (t : Text) : Nat := t.foldl (fun n b => 10 * n + (b.toNat - 0x30)) 0

/-! ## Pointing into a line -/

/-- The line, and below it a mark: one caret under `pos` if `stop` is zero, and otherwise carets
from `pos` up to `stop`. Both lines are indented by two blanks. -/
def context (line : Text) (pos stop : Nat) : Text :=
  let mark : Text := if stop = 0 then List.replicate pos 0x20 ++ [0x5e]
    else List.replicate (min pos stop) 0x20 ++ List.replicate (stop - pos) 0x5e
  [0x20, 0x20] ++ line ++ [0x0a, 0x20, 0x20] ++ mark

end Text

end TreeQuery
