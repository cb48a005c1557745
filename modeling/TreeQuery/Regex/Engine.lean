import TreeQuery.Regex.Library
import TreeQuery.Regex.Reader

/-!
# A library of regular expressions

A backtracking matcher for the patterns that can be read: alternatives are tried from left to right, repeats greedily or
reluctantly, and the first way to satisfy everything that follows is taken. As a library it refuses every text that it
cannot read, and gives up no search.

* `Cursor`: a place in a text, with what the groups have matched so far;
* `Pattern.run`: matches a pattern at a place, then continues;
* `Pattern.foundIn`: some place of the text starts a match;
* `Engine.library`: the library, which is used where the namespace `Engine` is open.
-/

namespace TreeQuery.Regex

set_option autoImplicit false

/-! ## Places in a text -/

/-- A place in a text: how many bytes are before it, the last of them, the bytes after it, and the
groups matched so far. -/
structure Cursor where
  pos : Nat
  prev : Option UInt8
  rest : Text
  groups : List (Nat × Text)

namespace Cursor

/-- Moves over the next byte if it passes the test. -/
def step? (c : Cursor) (test : UInt8 → Bool) : Option Cursor :=
  match c.rest with
  | [] => none
  | b :: r => if test b then some ⟨c.pos + 1, some b, r, c.groups⟩ else none

/-- Moves over a given text, byte by byte under the comparison `same`. -/
def over? (same : UInt8 → UInt8 → Bool) : Text → Cursor → Option Cursor
  | [], c => some c
  | b :: t, c => (c.step? (same b)).bind (over? same t)

/-- Between the two bytes of a carriage return and line feed. -/
def splitsBreak (c : Cursor) : Bool := c.prev == some 0x0d && c.rest.head? == some 0x0a

/-- The start of the text, or a place after a line break. -/
def atLineStart (c : Cursor) : Bool := c.prev.all Byte.isBreak && !c.splitsBreak

/-- The end of the text, or a place before a line break. -/
def atLineEnd (c : Cursor) : Bool := c.rest.head?.all Byte.isBreak && !c.splitsBreak

/-- Exactly one of the two neighbouring bytes is a word byte. -/
def atWordEdge (c : Cursor) : Bool :=
  c.prev.any ByteClass.word.has != c.rest.head?.any ByteClass.word.has

/-- Records what a group matched, from `c` up to `d`. -/
def record (number : Nat) (c d : Cursor) : Cursor :=
  { d with groups := (number, c.rest.take (d.pos - c.pos)) :: d.groups }

end Cursor

/-! ## Repeats -/

/-- What remains to be matched after a place. -/
abbrev Continuation := Cursor → Option Cursor

/-- `n` further rounds of `body`. -/
def exactly (body : Cursor → Continuation → Option Cursor) :
    Nat → Cursor → Continuation → Option Cursor
  | 0, c, k => k c
  | n + 1, c, k => body c fun d => exactly body n d k

/-- Up to `n` further rounds of `body`; a round that moves nowhere is the last. -/
def upTo (body : Cursor → Continuation → Option Cursor) (reluctant : Bool) :
    Nat → Cursor → Continuation → Option Cursor
  | 0, c, k => k c
  | n + 1, c, k =>
    let again := fun (_ : Unit) =>
      body c fun d => if c.pos < d.pos then upTo body reluctant n d k else k d
    if reluctant then (k c).or (again ()) else (again ()).or (k c)

/-! ## Matching -/

/-- Matches the pattern at a place and continues with `k`, in order of preference. -/
def Pattern.run (ignoreCase : Bool) : Pattern → Cursor → Continuation → Option Cursor
  | .empty, c, k => k c
  | .byte b, c, k => (c.step? (Byte.same ignoreCase b)).bind k
  | .any, c, k => (c.step? fun _ => true).bind k
  | .set s, c, k => (c.step? (s.has ignoreCase)).bind k
  | .lineStart, c, k => if c.atLineStart then k c else none
  | .lineEnd, c, k => if c.atLineEnd then k c else none
  | .wordEdge negated, c, k => if c.atWordEdge != negated then k c else none
  | .backref number, c, k =>
    (c.over? (Byte.same ignoreCase) ((c.groups.lookup number).getD [])).bind k
  | .seq p q, c, k => p.run ignoreCase c fun d => q.run ignoreCase d k
  | .alt p q, c, k => (p.run ignoreCase c k).or (q.run ignoreCase c k)
  | .group number p, c, k => p.run ignoreCase c fun d => k (c.record number d)
  | .look negated p, c, k =>
    match p.run ignoreCase c some, negated with
    | some d, false => k { c with groups := d.groups }
    | none, true => k c
    | _, _ => none
  | .iterate least most reluctant p, c, k =>
    exactly (p.run ignoreCase) least c fun d =>
      upTo (p.run ignoreCase) reluctant ((most.map (· - least)).getD (d.rest.length + 1)) d k

/-- The places from a given one to the end of the text. -/
def Cursor.onward (pos : Nat) (prev : Option UInt8) : Text → List Cursor
  | [] => [⟨pos, prev, [], []⟩]
  | b :: t => ⟨pos, prev, b :: t, []⟩ :: onward (pos + 1) (some b) t

/-- Some place of the text starts a match. -/
def Pattern.foundIn (p : Pattern) (ignoreCase : Bool) (t : Text) : Bool :=
  (Cursor.onward 0 none t).any fun c => (p.run ignoreCase c some).isSome

/-! ## The library -/

namespace Engine

/-- The library that reads and runs patterns. Of a text that is no pattern nothing is found. -/
scoped instance library : Library where
  refusal? r := if (Pattern.read? r.source).isSome then none else some "<regex error>"
  search r t := .ok ((Pattern.read? r.source).any (·.foundIn r.ignoreCase t))

end Engine

end TreeQuery.Regex
