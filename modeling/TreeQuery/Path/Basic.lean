import TreeQuery.Wildcard

/-!
# Paths

A path is a list of steps; a step follows an axis, tests the tag of what it reaches and filters by
predicates.

* `Axis` with its names;
* `Predicate`: tests of name, flag, position and attribute, closed under `not`, `and`, `or`;
* `Step`, `Path`;
* the words that are flags and the known attribute names.
-/

namespace TreeQuery

set_option autoImplicit false

/-! ## Axes -/

inductive Axis where
  | child | descendant | parent | ancestor | ancestorOrSelf | followingSibling | precedingSibling
  | self | descendantOrSelf
deriving DecidableEq

namespace Axis

/-- All axes, in the order of their numbers. -/
def all : List Axis :=
  [child, descendant, parent, ancestor, ancestorOrSelf, followingSibling, precedingSibling, self,
    descendantOrSelf]

def name : Axis → Text
  | child => "child"
  | descendant => "descendant"
  | parent => "parent"
  | ancestor => "ancestor"
  | ancestorOrSelf => "ancestor-or-self"
  | followingSibling => "following-sibling"
  | precedingSibling => "preceding-sibling"
  | self => "self"
  | descendantOrSelf => "descendant-or-self"

def ofName? (word : Text) : Option Axis := all.find? (·.name == word)

/-- The place of the axis in `all`. -/
def number (a : Axis) : Nat := all.idxOf a

end Axis

/-! ## Predicates -/

/-- How an attribute is compared with a value. -/
inductive Comparison where
  /-- No value: the attribute is there and not empty. -/
  | present
  | equal
  | notEqual
  | contains
deriving DecidableEq

/-- A test of an attribute; `regex` is the value as a regular expression where it is one. -/
structure AttributeTest where
  name : Text
  comparison : Comparison
  value : Text
  regex : Option Regex
deriving DecidableEq

/-- A place in the list of candidates: counted from one, or back from the last, which is zero. -/
structure Position where
  fromLast : Bool
  offset : Nat
deriving DecidableEq

inductive Predicate where
  | name (pattern : Text)
  | flag (word : Text)
  | position (p : Position)
  | attr (a : AttributeTest)
  | not (p : Predicate)
  | and (p q : Predicate)
  | or (p q : Predicate)
deriving DecidableEq

/-! ## Steps and paths -/

structure Step where
  axis : Axis
  test : Option Text
  predicates : List Predicate
deriving DecidableEq

/-- Every tag passes: there is no test, or the test is an asterisk. -/
def Step.matchesAny (s : Step) : Bool := s.test.all (· == ("*" : Text))

/-- A path with the text that it was read from. An absolute path starts at the top of the tree. -/
structure Path where
  text : Text
  absolute : Bool
  steps : List Step
deriving DecidableEq

/-! ## Known words -/

/-- Words that are flags when they stand alone in a predicate. -/
def flagWords : List Text :=
  ["async", "public", "private", "protected", "internal", "static", "abstract", "virtual", "override",
    "sealed", "readonly", "has-getter", "has-setter"]

def isFlagWord (word : Text) : Bool := flagWords.elem word

/-- The attributes that a node can have. -/
def attributeWords : List Text :=
  ["name", "type", "contains", "matches", "text", "language", "modifiers", "returns", "symbol",
    "symbol-kind"]

def isAttributeWord (word : Text) : Bool := attributeWords.elem word

end TreeQuery
