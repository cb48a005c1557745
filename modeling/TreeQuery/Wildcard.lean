import TreeQuery.Regex.Library

/-!
# Wildcards

In a wildcard pattern an asterisk stands for any bytes and a question mark for any single byte. A
pattern becomes a regular expression that reaches from a line start to a line end and ignores case.

* `Wildcard.occursIn`: the pattern holds a wildcard;
* `Wildcard.source`, `Wildcard.regex`: the regular expression for a pattern;
* `Wildcard.accepts`: comparison of a text with a pattern that may hold wildcards.
-/

namespace TreeQuery.Wildcard

set_option autoImplicit false

/-- An asterisk or a question mark. -/
def isWild (b : UInt8) : Bool := b == 0x2a || b == 0x3f

def occursIn (pattern : Text) : Bool := pattern.any isWild

/-- The bytes that a regular expression takes for themselves only after a backslash. -/
def needsEscape (b : UInt8) : Bool := ("\\^$.|+()[]\x7b\x7d" : Text).elem b

/-- The regular expression for one byte of a pattern. -/
def unit (b : UInt8) : Text :=
  if b = '?' then "." else if b = '*' then ".*" else if needsEscape b then [0x5c, b] else [b]

/-- The text of the regular expression for a pattern. -/
def source (pattern : Text) : Text := "^" ++ pattern.flatMap unit ++ "$"

def regex (pattern : Text) : Regex := .ofText (source pattern) true

/-- Compares a text with a pattern: with wildcards as a regular expression, which ignores case, and
without them byte by byte, ignoring case only if asked. -/
def accepts [Regex.Library] (pattern t : Text) (ignoreCase : Bool) : Except Regex.Error Bool :=
  if occursIn pattern then do
    let r ← (regex pattern).checked.mapError .refused
    r.foundIn t
  else .ok (if ignoreCase then t.sameFolded pattern else t == pattern)

end TreeQuery.Wildcard
