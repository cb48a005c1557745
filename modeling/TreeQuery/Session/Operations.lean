import TreeQuery.Session.Basic

/-!
# What a session does

* searching: `Session.parse`, `Session.find`, `Session.findStatements`;
* naming: `Session.stablePath`, `Session.nestingDepth`;
* markers: `Session.createMarker`, `Session.attach`, `Session.expireMarkers`,
  `Session.resolveMarker`;
* statements: `Session.registerStatement`, `Session.registerAll`, `Session.resolveStatement`.
-/

namespace TreeQuery.Session

set_option autoImplicit false

/-! ## Searching -/

variable [Regex.Library]

/-- Reads a path under the session's flags. -/
def parse (s : Session) (path : Text) : Except Failure Path :=
  (Path.parse (s.hasFlags strictFlag) path).mapError (.notPath path)

/-- The nodes that a path selects from a context node. -/
def select (s : Session) {t : Tree} (path : Path) (context : t.Node)
    (provider : Option (Provider t)) : Except Failure (List t.Node) :=
  (Semantics.evaluate ⟨s.vocabulary, provider⟩ path context).mapError .test

/-- Reads a path and reports how many nodes it selects from a context node. -/
def find {t : Tree} (path : Text) (context : t.Node) (provider : Option (Provider t)) :
    Action (List t.Node) := do
  let parsed ← Action.ask fun s => s.parse path
  let nodes ← Action.ask fun s => s.select parsed context provider
  Action.report [{ level := .trace, depth := 1, text :=
    "Path " ++ path ++ " selected " ++ Text.ofNat nodes.length ++ " nodes" }]
  return nodes

/-! ## Naming -/

def stablePath (s : Session) {t : Tree} (n : t.Node) (boundary : Option t.Node) : Text :=
  s.naming.path n boundary

def nestingDepth (s : Session) {t : Tree} (n : t.Node) (boundary : Option t.Node) : Nat :=
  s.naming.depth n boundary

/-- The reference to a place, which has to be inside the snapshot. -/
def refer (snapshot : Snapshot) (p : Place) : Except Failure Reference :=
  match snapshot.refer? p with
  | some r => .ok r
  | none => .error (.outside (describe p.node) snapshot.id)

/-! ## Markers -/

/-- A new marker; its id. -/
def createMarker (label : Option Text) (now : Int) : Action Text := fun s =>
  match s.markers.create? label now with
  | some (id, markers) => ⟨.ok id, { s with markers := markers }, []⟩
  | none => ⟨.error (.full s.markers.capacity), s, []⟩

/-- Points a marker at a place of a snapshot; `false` if there is no such marker. -/
def attach (id : Text) (snapshot : Snapshot) (p : Place) : Action Bool := do
  let r ← Action.ask fun _ => refer snapshot p
  Action.onMarkers (·.attach id r snapshot.file)

/-- Removes the markers created before a time; says how many there were. -/
def expireMarkers (time : Int) : Action Nat := fun s =>
  let (count, markers, log) := s.markers.expire time
  ⟨.ok count, { s with markers := markers }, log⟩

/-- The node that a marker is attached to, as far as it is in the snapshot. -/
def resolveMarker (s : Session) (id : Text) (snapshot : Snapshot) :
    Option snapshot.document.tree.Node :=
  ((s.markers.get? id).bind (·.target)).bind snapshot.resolve?

/-! ## Statements -/

/-- Registers the node at a place of a snapshot; its id. -/
def registerStatement (snapshot : Snapshot) (p : Place) : Action Text := do
  let r ← Action.ask fun _ => refer snapshot p
  let name ← Action.ask fun s => .ok s.name
  Action.onStatements (·.register r (snapshot.file.getD []) name)

/-- Registers a batch of references. -/
def registerAll (targets : List Reference) (file name : Text) : Action (List Statement) := fun s =>
  let (entries, statements, log) := s.statements.registerAll targets file name
  ⟨.ok entries, { s with statements := statements }, log⟩

/-- The node of a registered statement, as far as it is in the snapshot. -/
def resolveStatement (id : Text) (snapshot : Snapshot) :
    Action (Option snapshot.document.tree.Node) := do
  let entry ← Action.onStatements (·.lookup id)
  return entry.bind fun e => snapshot.resolve? e.target

/-- The statements among the nodes; nested ones are left out unless wanted. -/
def statementsAmong (s : Session) {t : Tree} (nested : Bool) (ns : List t.Node) : List t.Node :=
  ns.filter fun n => s.vocabulary.isStatement n.tag && (nested || !s.naming.isNested n)

/-- Registers the statements among the nodes that a path selects in a snapshot. -/
def findStatements (path : Text) (snapshot : Snapshot) (nested : Bool)
    (provider : Option (Provider snapshot.document.tree)) : Action (List Statement) := do
  let nodes ← find path snapshot.root provider
  let targets ← Action.ask fun s =>
    (s.statementsAmong nested nodes).mapM fun n => refer snapshot ⟨snapshot.document, n⟩
  let name ← Action.ask fun s => .ok s.name
  let entries ← registerAll targets (snapshot.file.getD []) name
  Action.report [{ level := .trace, depth := 2, text :=
    "Session '" ++ name ++ "' registered " ++ Text.ofNat entries.length ++ " statements for " ++ path }]
  return entries

end TreeQuery.Session
