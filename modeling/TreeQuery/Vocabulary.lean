import TreeQuery.Text.Basic

/-!
# Vocabularies

A vocabulary says what tags mean and which modifiers are other spellings of one another; letter case
never matters.

* `KindSet`: declaration, type declaration, statement and block as bits;
* `Vocabulary`, `Vocabulary.define`, `Vocabulary.addAlias`, `Vocabulary.clear`, `Vocabulary.default`;
* `Vocabulary.classify`: the kinds of a tag, also of tags such as `if-statement`;
* `Vocabulary.canonical`, `Vocabulary.hasModifier`.
-/

namespace TreeQuery

set_option autoImplicit false

/-! ## Kinds -/

/-- A set of kinds, one bit each. -/
abbrev KindSet := UInt8

namespace KindSet

def declaration : KindSet := 0x01

/-- A declaration of a type. -/
def typeDeclaration : KindSet := 0x02

def statement : KindSet := 0x04

def block : KindSet := 0x08

/-- The two sets share a kind. -/
def meets (f g : KindSet) : Bool := f &&& g != 0

end KindSet

/-! ## Entries -/

/-- The kinds of lower-case tags, and the lower-case modifier for each other spelling. -/
structure Vocabulary where
  tags : List (Text × KindSet)
  aliases : List (Text × Text)
deriving DecidableEq

namespace Vocabulary

/-- Replaces the entry for a key. -/
def assign {α : Type} (key : Text) (a : α) (entries : List (Text × α)) : List (Text × α) :=
  (key, a) :: entries.filter (·.1 != key)

def empty : Vocabulary := ⟨[], []⟩

/-- Gives a tag its kinds; no kinds at all remove its entry. -/
def define (v : Vocabulary) (tag : Text) (kinds : KindSet) : Vocabulary :=
  if kinds = 0 then { v with tags := v.tags.filter (·.1 != tag.lowered) }
  else { v with tags := assign tag.lowered kinds v.tags }

/-- Makes `spelling` stand for `modifier`. -/
def addAlias (v : Vocabulary) (spelling modifier : Text) : Vocabulary :=
  { v with aliases := assign spelling.lowered modifier.lowered v.aliases }

/-- Forgets everything. -/
def clear (_ : Vocabulary) : Vocabulary := empty

/-- One change of a vocabulary. -/
inductive Edit where
  | define (tag : Text) (kinds : KindSet)
  | addAlias (spelling modifier : Text)
  | clear

def edit (v : Vocabulary) : Edit → Vocabulary
  | .define tag kinds => v.define tag kinds
  | .addAlias spelling modifier => v.addAlias spelling modifier
  | .clear => v.clear

/-! ## Tags -/

/-- The part of a tag before a suffix, if the tag ends in it. -/
def beforeSuffix? (suffix tag : Text) : Option Text :=
  if suffix.isSuffixOf tag then some (tag.take (tag.length - suffix.length)) else none

/-- The kinds of a stem: `before` without the dash or underscore that ends it. -/
def stemKinds? (v : Vocabulary) (before : Text) : Option KindSet :=
  if 1 < before.length ∧ before.getLast?.any (fun b => b == 0x2d || b == 0x5f) then
    v.tags.lookup before.dropLast
  else none

/-- The kinds of a tag. A tag without an entry that ends in `statement` or `declaration` has the
kinds of its stem, or else is a plain statement or declaration. -/
def classify (v : Vocabulary) (tag : Text) : KindSet :=
  match v.tags.lookup tag.lowered with
  | some kinds => kinds
  | none =>
    match beforeSuffix? "statement" tag.lowered with
    | some before => (v.stemKinds? before).getD .statement
    | none =>
      match beforeSuffix? "declaration" tag.lowered with
      | some before => (v.stemKinds? before).getD .declaration
      | none => 0

def isDeclaration (v : Vocabulary) (tag : Text) : Bool := (v.classify tag).meets .declaration

def isTypeDeclaration (v : Vocabulary) (tag : Text) : Bool := (v.classify tag).meets .typeDeclaration

def isStatement (v : Vocabulary) (tag : Text) : Bool := (v.classify tag).meets .statement

def isBlock (v : Vocabulary) (tag : Text) : Bool := (v.classify tag).meets .block

def isRecognized (v : Vocabulary) (tag : Text) : Bool := v.classify tag != 0

/-! ## Modifiers -/

/-- The lower-case modifier that a spelling stands for. -/
def canonical (v : Vocabulary) (spelling : Text) : Text :=
  (v.aliases.lookup spelling.lowered).getD spelling.lowered

/-- One of the modifiers stands for the same as `word`. -/
def hasModifier (v : Vocabulary) (modifiers : List Text) (word : Text) : Bool :=
  modifiers.any (v.canonical · == v.canonical word)

/-! ## The default vocabulary -/

def typeTags : List Text :=
  ["class", "interface", "struct", "enum", "record", "module", "union", "exception", "delegate"]

def memberTags : List Text :=
  ["namespace", "method", "constructor", "destructor", "property", "field", "event", "function",
    "operator", "indexer", "accessor", "let", "member", "local-function"]

def statementTags : List Text :=
  ["if", "else", "for", "foreach", "while", "do", "switch", "try", "catch", "finally", "throw",
    "return", "using", "lock", "break", "continue", "yield", "goto", "checked", "unsafe", "fixed",
    "local-declaration", "expression-statement", "statement", "match", "else-clause", "catch-clause",
    "finally-clause", "switch-section"]

def defaultAliases : List (Text × Text) :=
  [("shared", "static"), ("mustinherit", "abstract"), ("mustoverride", "abstract"),
    ("overridable", "virtual"), ("overrides", "override"), ("notinheritable", "sealed"),
    ("notoverridable", "sealed"), ("friend", "internal"), ("mutable", "readonly")]

/-- The entries that give each of the tags the same kinds. -/
def entries (tags : List Text) (kinds : KindSet) : List (Text × KindSet) := tags.map (·, kinds)

def default : Vocabulary where
  tags := entries typeTags (.declaration ||| .typeDeclaration) ++ entries memberTags .declaration ++
    entries statementTags .statement ++ entries ["block"] .block
  aliases := defaultAliases

end Vocabulary

end TreeQuery
