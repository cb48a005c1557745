import TreeQuery.Log
import TreeQuery.Snapshot

/-!
# Registered statements

A registry of statements under ids of their own. It is ordered by last use, the most recent first,
and what was not used for longest leaves when there are too many. Statements are numbered without
bound; a counter of 64 bits numbers the same in runs of fewer than 2^64 registrations.

* `Statement`, `Statements`;
* `Statements.register`, `Statements.registerAll`, `Statements.lookup`, `Statements.clear`,
  `Statements.setCapacity`.
-/

namespace TreeQuery

set_option autoImplicit false

/-- A registered statement, with its file and the session that registered it. -/
structure Statement where
  id : Text
  target : Reference
  file : Text
  session : Text
deriving DecidableEq

/-- The statements by last use, the number of the next one, and how many may stay; zero means any
number. -/
structure Statements where
  entries : List Statement := []
  nextSerial : Nat := 1
  capacity : Nat := 10000
deriving DecidableEq

namespace Statements

variable (s : Statements)

def size : Nat := s.entries.length

/-- The id of the statement with a number. -/
def idOf (serial : Nat) : Text := "stmt-" ++ Text.ofNat serial

/-- Drops what is over the capacity, the least recently used first. -/
def evict : Statements :=
  if s.capacity = 0 then s else { s with entries := s.entries.take s.capacity }

/-- Adds a statement in front, without dropping any. -/
def push (target : Reference) (file session : Text) : Statement × Statements :=
  let entry : Statement := ⟨idOf s.nextSerial, target, file, session⟩
  (entry, { s with entries := entry :: s.entries, nextSerial := s.nextSerial + 1 })

/-- Registers a statement under a new id. -/
def register (target : Reference) (file session : Text) : Text × Statements :=
  let (entry, s) := s.push target file session
  (entry.id, s.evict)

/-- Adds statements in front, one after the other. -/
def pushAll (file session : Text) : List Reference → Statements → List Statement × Statements
  | [], s => ([], s)
  | target :: targets, s =>
    let (entry, s) := s.push target file session
    let (entries, s) := pushAll file session targets s
    (entry :: entries, s)

/-- The capacity that a batch of `n` needs. -/
def grown (n : Nat) : Nat := if s.capacity = 0 then 0 else max s.capacity n

/-- Registers a batch; the capacity grows if it is too small for the batch alone. -/
def registerAll (targets : List Reference) (file session : Text) :
    List Statement × Statements × List Log.Event :=
  let capacity := s.grown targets.length
  let (entries, t) := pushAll file session targets { s with capacity := capacity }
  (entries, t.evict,
    if capacity = s.capacity then []
    else [{ level := .warning, text := "Raising statement capacity from " ++ Text.ofNat s.capacity ++
      " to " ++ Text.ofNat capacity ++ " to hold a single batch" }])

/-- The statement with an id, which becomes the most recently used. -/
def lookup (id : Text) : Option Statement × Statements :=
  match s.entries.find? (·.id == id) with
  | none => (none, s)
  | some entry => (some entry, { s with entries := entry :: s.entries.filter (·.id != id) })

/-- Removes all statements but goes on numbering; says how many there were. -/
def clear : Nat × Statements := (s.size, { s with entries := [] })

def setCapacity (capacity : Nat) : Statements := { s with capacity := capacity }.evict

end Statements

end TreeQuery
