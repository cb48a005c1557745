import TreeQuery.Text.Basic

/-!
# Regular expressions

An expression is a text, and what the text says is up to a library. The library may refuse a text that is no expression,
and it may give up a search that becomes too complex for it; in both cases it says so in a message of its own.

* `Regex`: an expression as a text;
* `Regex.Library`: what is asked of a library;
* `Regex.ofText`, `Regex.checked`: the expression in a text, unless the library refuses it;
* `Regex.foundIn`: an expression matches somewhere in a text.
-/

namespace TreeQuery

set_option autoImplicit false

/-- The text of an expression, and whether case is ignored. -/
structure Regex where
  source : Text
  ignoreCase : Bool
deriving DecidableEq

namespace Regex

/-- A library of regular expressions. -/
class Library where
  /-- Why an expression is refused, if it is. -/
  refusal? : Regex → Option Text
  /-- Whether an expression matches somewhere in a text, or why the search was given up. -/
  search : Regex → Text → Except Text Bool

/-- Why a comparison with an expression fails, in the words of the library. -/
inductive Error where
  | refused (message : Text)
  | givenUp (message : Text)
deriving DecidableEq

/-- The expression in a text, which ends at the first NUL byte. -/
def ofText (source : Text) (ignoreCase : Bool) : Regex := ⟨source.beforeNul, ignoreCase⟩

variable [Library]

/-- The expression itself, or why it is refused. -/
def checked (r : Regex) : Except Text Regex :=
  match Library.refusal? r with
  | none => .ok r
  | some message => .error message

def foundIn (r : Regex) (t : Text) : Except Error Bool := (Library.search r t).mapError .givenUp

end Regex

end TreeQuery
