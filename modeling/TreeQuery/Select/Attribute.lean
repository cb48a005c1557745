import TreeQuery.Path.Basic
import TreeQuery.Tree.Node
import TreeQuery.Vocabulary

/-!
# Attributes and flags of nodes

* `SymbolInfo`, `Provider`: what a semantic analysis knows about nodes;
* `Semantics`: the vocabulary and the provider that give tests their meaning;
* `Semantics.attribute?`: the value of an attribute;
* `Semantics.nameHolds`, `Semantics.flagHolds`, `Semantics.attributeHolds`: tests of a single node.
-/

namespace TreeQuery

set_option autoImplicit false

/-- What is known about the symbol that a node declares. -/
structure SymbolInfo where
  name : Text := []
  kind : Text := []
  returns : Option Text := none
  display : Text := []
deriving DecidableEq

/-- Knowledge about the nodes of a tree, asked node by node. It may know nothing about a node and may
fail; a failure carries its message. -/
abbrev Provider (t : Tree) := t.Node → Except Text (Option SymbolInfo)

/-- What gives the tests of nodes their meaning. -/
structure Semantics (t : Tree) where
  vocabulary : Vocabulary
  provider : Option (Provider t)

/-- Why a test of a node fails. -/
inductive TestError where
  /-- The provider failed. -/
  | provider (message : Text)
  /-- A position was asked of a single node. -/
  | positional
  /-- A comparison with a regular expression failed. -/
  | regex (e : Regex.Error)
deriving DecidableEq

namespace Semantics

variable {t : Tree} (m : Semantics t)

/-! ## Values -/

/-- What the provider knows about a node. -/
def symbol? (n : t.Node) : Except TestError (Option SymbolInfo) :=
  match m.provider with
  | none => .ok none
  | some ask => (ask n).mapError .provider

/-- The value of an attribute; a node may have none. -/
def attribute? (n : t.Node) (name : Text) : Except TestError (Option Text) :=
  if name = ("name" : Text) then .ok n.name
  else if name = ("type" : Text) then .ok (some n.tag)
  else if name = ("text" : Text) ∨ name = ("contains" : Text) ∨ name = ("matches" : Text) then
    .ok (some n.text)
  else if name = ("language" : Text) then
    .ok (if n.language.isEmpty then none else some n.language)
  else if name = ("modifiers" : Text) then .ok (some (Text.joinBlank n.label.modifiers))
  else if name = ("returns" : Text) then
    (m.symbol? n).map fun info => info.bind (·.returns)
  else if name = ("symbol" : Text) then
    (m.symbol? n).map fun info => info.map fun i => i.display.orElse i.name
  else if name = ("symbol-kind" : Text) then
    (m.symbol? n).map fun info => info.map (·.kind)
  else .ok none

/-! ## Tests -/

/-- A child is the accessor `which`: its tag says so, or it is called so, or it groups one. -/
def isAccessor (which : Text) (c : t.Node) : Bool :=
  c.tag.sameFolded which ||
    if c.tag.sameFolded "accessor" then c.name.any (·.sameFolded which)
    else c.tag.sameFolded "accessor-list" && c.children.any (·.tag.sameFolded which)

/-- The node is a property with the accessor `which`. -/
def hasAccessor (which : Text) (n : t.Node) : Bool :=
  n.tag.sameFolded "property" && n.children.any (isAccessor which)

def flagHolds (word : Text) (n : t.Node) : Bool :=
  if word.sameFolded "has-getter" then hasAccessor "get" n
  else if word.sameFolded "has-setter" then hasAccessor "set" n
  else m.vocabulary.hasModifier n.label.modifiers word

variable [Regex.Library]

/-- The name of the node matches a pattern. -/
def nameHolds (pattern : Text) (n : t.Node) : Except Regex.Error Bool :=
  match n.name with
  | none => .ok false
  | some name => Wildcard.accepts pattern name false

/-- The node has a modifier that matches a pattern, in its canonical spelling or in its own. -/
def hasModifierLike (pattern : Text) (n : t.Node) : Except Regex.Error Bool :=
  if Wildcard.occursIn pattern then
    n.label.modifiers.anyM fun word => do
      if ← Wildcard.accepts pattern (m.vocabulary.canonical word) false then return true
      else Wildcard.accepts pattern word false
  else .ok (m.vocabulary.hasModifier n.label.modifiers pattern)

/-- The test of the attribute `modifiers`, which looks at each modifier by itself. -/
def modifiersHold (a : AttributeTest) (n : t.Node) : Except Regex.Error Bool :=
  match a.comparison with
  | .present => .ok !n.label.modifiers.isEmpty
  | .notEqual => (m.hasModifierLike a.value n).map (!·)
  | .equal | .contains => m.hasModifierLike a.value n

/-- The regular expression of the test, if it has one, matches somewhere in the value. -/
def valueMatches (a : AttributeTest) (value : Text) : Except Regex.Error Bool :=
  match a.regex with
  | none => .ok false
  | some r => r.foundIn value

/-- The attribute's value equals the wanted one, in the sense that the attribute gives to it. -/
def valueEquals (a : AttributeTest) (value : Text) : Except Regex.Error Bool :=
  if a.name = ("contains" : Text) then .ok (Text.contains a.value value)
  else if a.name = ("matches" : Text) then valueMatches a value
  else if a.name = ("text" : Text) then Wildcard.accepts a.value value false
  else Wildcard.accepts a.value value true

/-- The attribute's value contains the wanted one. -/
def valueContains (a : AttributeTest) (value : Text) : Except Regex.Error Bool :=
  if a.name = ("matches" : Text) then valueMatches a value
  else if a.name = ("contains" : Text) then .ok (Text.contains a.value value)
  else .ok (Text.containsFolded a.value value)

def valueHolds (a : AttributeTest) (value : Text) : Except Regex.Error Bool :=
  match a.comparison with
  | .present => .ok !value.isEmpty
  | .equal => valueEquals a value
  | .notEqual => (valueEquals a value).map (!·)
  | .contains => valueContains a value

/-- The test of an attribute; a node without it passes no test. -/
def attributeHolds (a : AttributeTest) (n : t.Node) : Except TestError Bool :=
  if a.name = ("modifiers" : Text) then (m.modifiersHold a n).mapError .regex
  else do
    match ← m.attribute? n a.name with
    | none => return false
    | some value => (valueHolds a value).mapError .regex

end Semantics

end TreeQuery
