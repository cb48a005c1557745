import TreeQuery.Path.Parser
import TreeQuery.Select.Evaluation
import TreeQuery.Store.Marker
import TreeQuery.Store.Statement

/-!
# Sessions

A session has its own vocabulary, its own options for reading paths and naming nodes, and its own
markers and statements.

* `Failure`: why an operation fails, with its message;
* `Session` and its flags;
* `Session.Action`: an operation that may change a session, report events and fail.
-/

namespace TreeQuery

set_option autoImplicit false

/-! ## Failures -/

inductive Failure where
  /-- The text is no path. -/
  | notPath (input : Text) (e : SyntaxError)
  /-- A test of a node failed. -/
  | test (e : TestError)
  /-- There is no room for another marker. -/
  | full (capacity : Nat)
  /-- A node, here described, is outside the snapshot with this number. -/
  | outside (node : Text) (snapshot : Nat)
deriving DecidableEq

def Failure.message : Failure → Text
  | notPath input e => e.message input
  | test (.provider message) => message
  | test .positional => "A position has no meaning for a single node"
  | test (.regex (.refused message)) | test (.regex (.givenUp message)) => message
  | full capacity => "Cannot create marker: all " ++ Text.ofNat capacity ++
      " markers are in use; remove or clear markers first"
  | outside node snapshot =>
      "Node " ++ node ++ " does not belong to snapshot " ++ Text.ofNat snapshot

/-! ## Sessions -/

structure Session where
  name : Text := "default"
  flags : UInt8 := 0
  style : NamingStyle := .compact
  vocabulary : Vocabulary := .default
  markers : Markers := {}
  statements : Statements := {}
deriving DecidableEq

namespace Session

/-- The flag under which comparisons of unknown attributes are errors. -/
def strictFlag : UInt8 := 0x01

/-- One of the flags is set. -/
def hasFlags (s : Session) (flags : UInt8) : Bool := s.flags &&& flags != 0

def addFlags (s : Session) (flags : UInt8) : Session := { s with flags := s.flags ||| flags }

def dropFlags (s : Session) (flags : UInt8) : Session := { s with flags := s.flags &&& ~~~flags }

/-- How the session names nodes. -/
def naming (s : Session) : Naming := ⟨s.vocabulary, s.style⟩

/-! ## Actions -/

/-- What an operation leaves behind: its result, the session after it and what it reported. -/
structure Outcome (α : Type) where
  result : Except Failure α
  session : Session
  log : List Log.Event

/-- An operation on a session. A failure ends it, but what was done and reported before it stays. -/
def Action (α : Type) := Session → Outcome α

namespace Action

variable {α β : Type}

def done (a : α) : Action α := fun s => ⟨.ok a, s, []⟩

/-- One operation after another; the second is given the result of the first. -/
def andThen (x : Action α) (f : α → Action β) : Action β := fun s =>
  let first := x s
  match first.result with
  | .error e => ⟨.error e, first.session, first.log⟩
  | .ok a =>
    let second := f a first.session
    { second with log := first.log ++ second.log }

instance : Monad Action where
  pure := done
  bind := andThen

/-- Asks the session something that may fail. -/
def ask (f : Session → Except Failure α) : Action α := fun s => ⟨f s, s, []⟩

def report (events : List Log.Event) : Action Unit := fun s => ⟨.ok (), s, events⟩

/-- Changes the markers. -/
def onMarkers (f : Markers → α × Markers) : Action α := fun s =>
  ⟨.ok (f s.markers).1, { s with markers := (f s.markers).2 }, []⟩

/-- Changes the statements. -/
def onStatements (f : Statements → α × Statements) : Action α := fun s =>
  ⟨.ok (f s.statements).1, { s with statements := (f s.statements).2 }, []⟩

end Action

end Session

end TreeQuery
