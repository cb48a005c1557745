import TreeQuery.Regex.Pattern

/-!
# Reading a regular expression

A pattern is read in two passes. `symbols?` cuts the text into symbols (atoms, anchors, repeats,
brackets of groups), and `Builder` joins them into a `Pattern`, keeping the groups that are still
open on a stack. `Pattern.read?` is both passes; it refuses

* an unclosed group or set, a `)` that closes nothing, a trailing backslash;
* a repeat with nothing to repeat, or with its bounds reversed;
* a reversed range and an unknown class in a set, and a back-reference to a group not closed yet;
* a backslash before a letter or digit that has no meaning here.
-/

namespace TreeQuery.Regex

set_option autoImplicit false

/-! ## Symbols -/

/-- How a group behaves. -/
inductive GroupKind where
  | capture
  | plain
  | look (negated : Bool)
deriving DecidableEq

inductive Symbol where
  /-- Something that may be repeated. -/
  | atom (p : Pattern)
  /-- A place, which may not. -/
  | anchor (p : Pattern)
  | backref (group : Nat)
  | opening (kind : GroupKind)
  | closing
  | bar
  | times (least : Nat) (most : Option Nat) (reluctant : Bool)
deriving DecidableEq

/-- The class or complement that an escape stands for. -/
def escapedClass? (b : UInt8) : Option SetItem :=
  if b = 'd' then some (.cls .digit false)
  else if b = 'D' then some (.cls .digit true)
  else if b = 'w' then some (.cls .word false)
  else if b = 'W' then some (.cls .word true)
  else if b = 's' then some (.cls .space false)
  else if b = 'S' then some (.cls .space true)
  else none

/-- The byte that an escape stands for: a control byte, or the escaped byte itself unless it is a
letter or digit. -/
def escapedByte? (b : UInt8) : Option UInt8 :=
  if b = 't' then some 0x09 else if b = 'n' then some 0x0a else if b = 'r' then some 0x0d
  else if b = 'f' then some 0x0c else if Byte.isAlnum b then none else some b

/-! ## Sets

Each reader is given the bytes after the one that called for it and also says how many of them it
used.
-/

/-- The end of a range that starts with `lo`, if a range is meant; a dash before the closing bracket
stands for itself. -/
def rangeFrom? (lo : UInt8) : Text → Option (SetItem × Nat)
  | 0x2d :: 0x5d :: _ => some (.range lo lo, 0)
  | 0x2d :: 0x5c :: e :: _ =>
    (escapedByte? e).bind fun hi => if lo ≤ hi then some (.range lo hi, 3) else none
  | 0x2d :: hi :: _ => if lo ≤ hi then some (.range lo hi, 2) else none
  | _ => some (.range lo lo, 0)

/-- One entry of a set, which starts with `b`. -/
def setItem? (b : UInt8) (r : Text) : Option (SetItem × Nat) :=
  match b, r with
  | 0x5b, 0x3a :: r =>
    let name := r.takeWhile Byte.isAlpha
    if [0x3a, 0x5d].isPrefixOf (r.drop name.length) then
      (ByteClass.ofName? name).map fun c => (.cls c false, name.length + 3)
    else none
  | 0x5c, [] => none
  | 0x5c, e :: r =>
    match escapedClass? e with
    | some item => some (item, 1)
    | none => do
      let lo ← escapedByte? e
      let (item, n) ← rangeFrom? lo r
      return (item, n + 1)
  | b, r => rangeFrom? b r

/-- The entries up to the closing bracket. -/
def setItems? : Text → Option (List SetItem × Nat)
  | [] => none
  | b :: r =>
    if b = ']' then some ([], 1)
    else do
      let (item, n) ← setItem? b r
      let (items, m) ← setItems? (r.drop n)
      return (item :: items, n + m + 1)
termination_by t => t.length
decreasing_by simp only [List.length_cons, List.length_drop]; omega

/-- A set after its opening bracket; a closing bracket that comes first stands for itself. -/
def set? (r : Text) : Option (ByteSet × Nat) :=
  let negated := [0x5e].isPrefixOf r
  let skip := if negated then 1 else 0
  match r.drop skip with
  | 0x5d :: r => do
    let (item, n) ← rangeFrom? 0x5d r
    let (items, m) ← setItems? (r.drop n)
    return (⟨item :: items, negated⟩, skip + 1 + n + m)
  | r => (setItems? r).map fun (items, n) => (⟨items, negated⟩, skip + n)

/-! ## Repeats -/

/-- A question mark after a repeat makes it reluctant. -/
def timesFrom (least : Nat) (most : Option Nat) (used : Nat) (r : Text) : Symbol × Nat :=
  if [0x3f].isPrefixOf r then (.times least most true, used + 1) else (.times least most false, used)

/-- The bounds after an opening brace, `none` if there are none and the brace stands for itself. -/
def bounds? (r : Text) : Option (Nat × Option Nat × Nat) :=
  let lo : Text := r.takeWhile Byte.isDigit
  let n := lo.length
  if lo.isEmpty then none
  else match r.drop n with
    | 0x7d :: _ => some (lo.numeral, some lo.numeral, n + 1)
    | 0x2c :: r =>
      let hi : Text := r.takeWhile Byte.isDigit
      if [0x7d].isPrefixOf (r.drop hi.length) then
        some (lo.numeral, if hi.isEmpty then none else some hi.numeral, n + hi.length + 2)
      else none
    | _ => none

/-! ## The symbols of a text -/

/-- The symbol after a backslash. -/
def escape? : Text → Option (Symbol × Nat)
  | [] => none
  | b :: _ =>
    if b = 'b' then some (.anchor (.wordEdge false), 1)
    else if b = 'B' then some (.anchor (.wordEdge true), 1)
    else if '1' ≤ b ∧ b ≤ '9' then some (.backref (b.toNat - 0x30), 1)
    else match escapedClass? b with
      | some item => some (.atom (.set ⟨[item], false⟩), 1)
      | none => (escapedByte? b).map fun c => (.atom (.byte c), 1)

/-- The symbol that starts with `b`, given the bytes after it. -/
def symbol? (b : UInt8) (r : Text) : Option (Symbol × Nat) :=
  if b = '\\' then escape? r
  else if b = '.' then some (.atom .any, 0)
  else if b = '^' then some (.anchor .lineStart, 0)
  else if b = '$' then some (.anchor .lineEnd, 0)
  else if b = '|' then some (.bar, 0)
  else if b = ')' then some (.closing, 0)
  else if b = '(' then
    some (if ("?:" : Text).isPrefixOf r then (.opening .plain, 2)
      else if ("?=" : Text).isPrefixOf r then (.opening (.look false), 2)
      else if ("?!" : Text).isPrefixOf r then (.opening (.look true), 2)
      else (.opening .capture, 0))
  else if b = '[' then (set? r).map fun (s, n) => (.atom (.set s), n)
  else if b = '*' then some (timesFrom 0 none 0 r)
  else if b = '+' then some (timesFrom 1 none 0 r)
  else if b = '?' then some (timesFrom 0 (some 1) 0 r)
  else if b = 0x7b then
    match bounds? r with
    | some (least, most, n) => some (timesFrom least most n (r.drop n))
    | none => some (.atom (.byte b), 0)
  else some (.atom (.byte b), 0)

def symbols? : Text → Option (List Symbol)
  | [] => some []
  | b :: r => do
    let (s, n) ← symbol? b r
    let ss ← symbols? (r.drop n)
    return s :: ss
termination_by t => t.length
decreasing_by simp only [List.length_cons, List.length_drop]; omega

/-! ## Joining symbols -/

/-- A group being read: the alternatives that are complete, and the current one except for its last
part, which a repeat may still take up. -/
structure Level where
  choices : Option Pattern
  done : Pattern
  last : Option Pattern

namespace Level

def fresh : Level := ⟨none, .empty, none⟩

/-- `p` followed by `q`, without a needless empty part. -/
def join (p q : Pattern) : Pattern := if p = .empty then q else .seq p q

/-- The current alternative. -/
def current (l : Level) : Pattern := l.last.elim l.done (join l.done)

/-- All alternatives together. -/
def whole (l : Level) : Pattern := l.choices.elim l.current (.alt · l.current)

/-- Adds a part that a repeat may take up. -/
def add (l : Level) (p : Pattern) : Level := ⟨l.choices, l.current, some p⟩

/-- Adds a part that a repeat may not take up. -/
def addAnchor (l : Level) (p : Pattern) : Level := ⟨l.choices, join l.current p, none⟩

/-- Repeats the last part. -/
def repeatLast? (l : Level) (least : Nat) (most : Option Nat) (reluctant : Bool) : Option Level :=
  l.last.map fun p => ⟨l.choices, join l.done (.iterate least most reluctant p), none⟩

/-- Starts the next alternative. -/
def split (l : Level) : Level := ⟨some l.whole, .empty, none⟩

end Level

/-- An open group: the level around it, its kind and its number. -/
structure Frame where
  outer : Level
  kind : GroupKind
  number : Nat

def Frame.close (f : Frame) (inner : Pattern) : Level :=
  f.outer.add <| match f.kind with
    | .capture => .group f.number inner
    | .plain => inner
    | .look negated => .look negated inner

/-- The innermost level, the groups around it, and how many groups have been numbered. -/
structure Builder where
  level : Level
  frames : List Frame
  numbered : Nat

namespace Builder

def start : Builder := ⟨.fresh, [], 0⟩

def push? (s : Builder) : Symbol → Option Builder
  | .atom p => some { s with level := s.level.add p }
  | .anchor p => some { s with level := s.level.addAnchor p }
  | .backref n =>
    if n ≤ s.numbered ∧ ∀ f ∈ s.frames, f.kind = .capture → f.number ≠ n then
      some { s with level := s.level.add (.backref n) }
    else none
  | .opening kind =>
    let n := if kind = .capture then s.numbered + 1 else s.numbered
    some ⟨.fresh, ⟨s.level, kind, n⟩ :: s.frames, n⟩
  | .closing =>
    match s.frames with
    | [] => none
    | f :: fs => some { s with level := f.close s.level.whole, frames := fs }
  | .bar => some { s with level := s.level.split }
  | .times least most reluctant =>
    if most.any (· < least) then none
    else (s.level.repeatLast? least most reluctant).map fun l => { s with level := l }

/-- The pattern, once every group is closed. -/
def finish? (s : Builder) : Option Pattern := if s.frames.isEmpty then some s.level.whole else none

end Builder

/-- The pattern that a text denotes, if it is well formed. -/
def Pattern.read? (t : Text) : Option Pattern :=
  (symbols? t).bind fun ss => (ss.foldlM Builder.push? Builder.start).bind Builder.finish?

end TreeQuery.Regex
