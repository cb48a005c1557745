import TreeQuery.Path.Basic

/-!
# Writing paths

* `Path.print`: the canonical text of a path, with every axis written out;
* `Path.outline`: an indented listing of a path with one line per step and per part of a predicate.
-/

namespace TreeQuery

set_option autoImplicit false

/-- A text in single quotes, with a backslash before each single quote and backslash. -/
def quoted (t : Text) : Text :=
  [0x27] ++ t.flatMap (fun (b : UInt8) => if b = 0x27 ∨ b = 0x5c then [0x5c, b] else [b]) ++ [0x27]

def Position.print (p : Position) : Text :=
  if p.fromLast then
    "last()" ++ if p.offset = 0 then [] else 0x2d :: Text.ofNat p.offset
  else Text.ofNat p.offset

def Comparison.sign : Comparison → Text
  | present => ""
  | equal => "="
  | notEqual => "!="
  | contains => "~="

def AttributeTest.print (a : AttributeTest) : Text :=
  "@" ++ a.name ++ a.comparison.sign ++ if a.comparison = .present then [] else quoted a.value

namespace Predicate

/-- Operands that are joined themselves are put in parentheses. -/
def isJoined : Predicate → Bool
  | and .. | or .. => true
  | _ => false

def parenthesized (joined : Bool) (t : Text) : Text := if joined then "(" ++ t ++ ")" else t

def print : Predicate → Text
  | name pattern => "@name=" ++ quoted pattern
  | flag word => "@" ++ word
  | position p => p.print
  | attr a => a.print
  | not p => "not(" ++ p.print ++ ")"
  | and p q => parenthesized p.isJoined p.print ++ " and " ++ parenthesized q.isJoined q.print
  | or p q => parenthesized p.isJoined p.print ++ " or " ++ parenthesized q.isJoined q.print

/-- One line per part, each indented by one more than the part around it. -/
def outline (depth : Nat) : Predicate → Text
  | name pattern => line depth ("NAME: " ++ pattern)
  | flag word => line depth ("FLAG: " ++ word)
  | position p => line depth ("POSITION: " ++ p.print)
  | attr a => line depth ("ATTRIBUTE: " ++ a.print)
  | not p => line depth "O_NOT" ++ p.outline (depth + 1)
  | and p q => line depth "O_AND" ++ p.outline (depth + 1) ++ q.outline (depth + 1)
  | or p q => line depth "O_OR" ++ p.outline (depth + 1) ++ q.outline (depth + 1)
where
  line (depth : Nat) (t : Text) : Text := (List.replicate depth 0x20 : Text) ++ t ++ " (1)\n"

end Predicate

def Step.print (s : Step) : Text :=
  s.axis.name ++ "::" ++ s.test.getD "*" ++ s.predicates.flatMap fun p => ("[" ++ p.print ++ "]" : Text)

namespace Path

def print (p : Path) : Text :=
  (if p.absolute then "/" else "") ++ List.intercalate "/" (p.steps.map Step.print)

def outline (p : Path) : Text :=
  "path: " ++ p.text ++ (if p.absolute then " (absolute)" else "") ++ "\n" ++
    p.steps.zipIdx.flatMap fun (s, i) =>
      ("  step " ++ Text.ofNat (i + 1) ++ ": " ++ s.print ++ "\n" ++
        s.predicates.flatMap (Predicate.outline 4) : Text)

end Path

end TreeQuery
