import Mathlib.Data.List.Basic
import Mathlib.Data.List.Induction
import TreeQuery.Proofs.Store.Marking
import TreeQuery.Proofs.Store.Recency

/-!
# Runs of a session

What a session can be asked, as one type of requests. A request works on one of the two stores at most, and there it
makes at most one of the calls that the store knows; so a run of a session is a run of its markers and a run of its
statements, and what was proved of these holds inside a session.

* `Action.bind_of_ok`, `Action.bind_of_error`: one operation after another;
* `find_session`, `registerStatement_cases`, `findStatements_cases`: the operations that search and register;
* `Request`, `Request.run`, `Request.issued`: the session after a request, and the ids of statements that it returns;
* `Request.run_markers`, `Request.run_statements`: the call that a request makes;
* `History`, `history`, `markers_history`, `exists_history`: runs of a session as runs of its stores.
-/

namespace TreeQuery.Session

set_option autoImplicit false

variable {s : Session}

/-! ## Operations -/

namespace Action

variable {α β : Type} {x : Action α} {f : α → Action β} {u : Session} {log : List Log.Event}

theorem bind_of_ok {a : α} (h : x s = ⟨.ok a, u, log⟩) : (x >>= f) s = { f a u with log := log ++ (f a u).log } := by
  show andThen x f s = _
  rw [andThen, h]

theorem bind_of_error {e : Failure} (h : x s = ⟨.error e, u, log⟩) : (x >>= f) s = ⟨.error e, u, log⟩ := by
  show andThen x f s = _
  rw [andThen, h]

theorem ask_eq {g : Session → Except Failure α} {r : Except Failure α} (h : g s = r) : ask g s = ⟨r, s, []⟩ := by
  rw [← h]
  rfl

end Action

theorem refer_of_none {snapshot : Snapshot} {p : Place} (h : snapshot.refer? p = none) :
    refer snapshot p = .error (.outside (describe p.node) snapshot.id) := by
  rw [refer, h]

theorem refer_of_some {snapshot : Snapshot} {p : Place} {target : Reference} (h : snapshot.refer? p = some target) :
    refer snapshot p = .ok target := by
  rw [refer, h]

theorem registerStatement_cases (snapshot : Snapshot) (p : Place) (s : Session) :
    ((∃ e, (registerStatement snapshot p s).result = .error e) ∧ (registerStatement snapshot p s).session = s) ∨
      ∃ target, snapshot.refer? p = some target ∧ (registerStatement snapshot p s).result =
          .ok (s.statements.register target (snapshot.file.getD []) s.name).1 ∧
        (registerStatement snapshot p s).session =
          { s with statements := (s.statements.register target (snapshot.file.getD []) s.name).2 } := by
  unfold registerStatement
  cases hrefer : snapshot.refer? p with
  | none =>
      rw [Action.bind_of_error (Action.ask_eq (refer_of_none hrefer))]
      exact .inl ⟨⟨_, rfl⟩, rfl⟩
  | some target =>
      rw [Action.bind_of_ok (Action.ask_eq (refer_of_some hrefer))]
      exact .inr ⟨target, rfl, rfl, rfl⟩

/-! ## Calls of the stores -/

/-- The session after a call of its marker store. -/
def afterMarker (s : Session) : Markers.Call → Session
  | .create label now => (createMarker label now s).session
  | .attach id snapshot p => (attach id snapshot p s).session
  | .remove id => (Action.onMarkers (·.remove id) s).session
  | .clear => (Action.onMarkers (·.clear) s).session
  | .expire time => (expireMarkers time s).session

/-- The session after a call of its registry. -/
def afterStatement (s : Session) : Statements.Call → Session
  | .register target file name => (Action.onStatements (·.register target file name) s).session
  | .registerAll targets file name => (registerAll targets file name s).session
  | .lookup id => (Action.onStatements (·.lookup id) s).session
  | .setCapacity capacity => (Action.onStatements (fun r => ((), r.setCapacity capacity)) s).session
  | .clear => (Action.onStatements (·.clear) s).session

theorem attach_session (id : Text) (snapshot : Snapshot) (p : Place) (s : Session) :
    (attach id snapshot p s).session = { s with markers := (Markers.Call.attach id snapshot p).run s.markers } := by
  unfold attach
  cases hrefer : snapshot.refer? p with
  | none =>
      rw [Action.bind_of_error (Action.ask_eq (refer_of_none hrefer)), Markers.Call.run, hrefer]
      rfl
  | some target =>
      rw [Action.bind_of_ok (Action.ask_eq (refer_of_some hrefer)), Markers.Call.run, hrefer]
      rfl

theorem afterMarker_eq (s : Session) (c : Markers.Call) :
    s.afterMarker c = { s with markers := c.run s.markers } := by
  cases c with
  | create label now =>
      rw [afterMarker, createMarker, Markers.Call.run]
      cases s.markers.create? label now <;> rfl
  | attach id snapshot p => exact attach_session id snapshot p s
  | remove id => rfl
  | clear => rfl
  | expire time => rfl

theorem afterStatement_eq (s : Session) (c : Statements.Call) :
    s.afterStatement c = { s with statements := c.run s.statements } := by
  cases c <;> rfl

variable [Regex.Library]

/-! ## Searches -/

/-- A search only reports. -/
theorem find_session {t : Tree} (path : Text) (context : t.Node) (provider : Option (Provider t)) (s : Session) :
    (find path context provider s).session = s := by
  unfold find
  cases hparse : s.parse path with
  | error e => rw [Action.bind_of_error (Action.ask_eq hparse)]
  | ok p =>
      rw [Action.bind_of_ok (Action.ask_eq hparse)]
      cases hselect : s.select p context provider with
      | error e => rw [Action.bind_of_error (Action.ask_eq hselect)]
      | ok nodes =>
          rw [Action.bind_of_ok (Action.ask_eq hselect)]
          rfl

theorem find_eq {t : Tree} {path : Text} {context : t.Node} {provider : Option (Provider t)}
    {r : Except Failure (List t.Node)} (h : (find path context provider s).result = r) :
    find path context provider s = ⟨r, s, (find path context provider s).log⟩ := by
  have hsession := find_session path context provider s
  cases houtcome : find path context provider s with
  | mk result session log =>
      rw [houtcome] at h hsession
      cases h
      cases hsession
      rfl

/-- What registering the statements among nodes leaves, if there are references to all of them. -/
theorem findStatements_of_ok {path : Text} {snapshot : Snapshot} (nested : Bool)
    {provider : Option (Provider snapshot.document.tree)} {nodes : List snapshot.document.tree.Node}
    {targets : List Reference} (hfind : (find path snapshot.root provider s).result = .ok nodes)
    (htargets : (s.statementsAmong nested nodes).mapM (fun n => refer snapshot ⟨snapshot.document, n⟩) =
      .ok targets) :
    (findStatements path snapshot nested provider s).result =
        .ok (s.statements.registerAll targets (snapshot.file.getD []) s.name).1 ∧
      (findStatements path snapshot nested provider s).session =
        { s with statements := (s.statements.registerAll targets (snapshot.file.getD []) s.name).2.1 } := by
  unfold findStatements
  rw [Action.bind_of_ok (find_eq hfind), Action.bind_of_ok (Action.ask_eq htargets)]
  exact ⟨rfl, rfl⟩

theorem findStatements_cases (path : Text) (snapshot : Snapshot) (nested : Bool)
    (provider : Option (Provider snapshot.document.tree)) (s : Session) :
    ((∃ e, (findStatements path snapshot nested provider s).result = .error e) ∧
        (findStatements path snapshot nested provider s).session = s) ∨
      ∃ targets, (findStatements path snapshot nested provider s).result =
          .ok (s.statements.registerAll targets (snapshot.file.getD []) s.name).1 ∧
        (findStatements path snapshot nested provider s).session =
          { s with statements := (s.statements.registerAll targets (snapshot.file.getD []) s.name).2.1 } := by
  cases hfind : (find path snapshot.root provider s).result with
  | error e =>
      left
      unfold findStatements
      rw [Action.bind_of_error (find_eq hfind)]
      exact ⟨⟨e, rfl⟩, rfl⟩
  | ok nodes =>
      cases htargets : (s.statementsAmong nested nodes).mapM fun n => refer snapshot ⟨snapshot.document, n⟩ with
      | error e =>
          left
          unfold findStatements
          rw [Action.bind_of_ok (find_eq hfind), Action.bind_of_error (Action.ask_eq htargets)]
          exact ⟨⟨e, rfl⟩, rfl⟩
      | ok targets => exact .inr ⟨targets, findStatements_of_ok nested hfind htargets⟩

/-! ## Requests -/

/-- What a session can be asked. Questions that only read it are left out, except for the search. -/
inductive Request where
  | marker (c : Markers.Call)
  | statement (c : Statements.Call)
  | find {t : Tree} (path : Text) (context : t.Node) (provider : Option (Provider t))
  | registerStatement (snapshot : Snapshot) (p : Place)
  | resolveStatement (id : Text) (snapshot : Snapshot)
  | findStatements (path : Text) (snapshot : Snapshot) (nested : Bool)
      (provider : Option (Provider snapshot.document.tree))
  | edit (e : Vocabulary.Edit)
  | setStyle (style : NamingStyle)
  | addFlags (flags : UInt8)
  | dropFlags (flags : UInt8)

namespace Request

/-- The session after a request, whether it succeeds or fails. -/
def run : Request → Session → Session
  | marker c, s => s.afterMarker c
  | statement c, s => s.afterStatement c
  | find path context provider, s => (Session.find path context provider s).session
  | registerStatement snapshot p, s => (Session.registerStatement snapshot p s).session
  | resolveStatement id snapshot, s => (Session.resolveStatement id snapshot s).session
  | findStatements path snapshot nested provider, s =>
    (Session.findStatements path snapshot nested provider s).session
  | edit e, s => { s with vocabulary := s.vocabulary.edit e }
  | setStyle style, s => { s with style := style }
  | addFlags flags, s => s.addFlags flags
  | dropFlags flags, s => s.dropFlags flags

/-- The ids of statements that a request returns to whoever registers them. -/
def issued : Request → Session → List Text
  | statement c, s => (c.added s.statements).map Statement.id
  | registerStatement snapshot p, s => (Session.registerStatement snapshot p s).result.toOption.toList
  | findStatements path snapshot nested provider, s =>
    ((Session.findStatements path snapshot nested provider s).result.toOption.getD []).map Statement.id
  | _, _ => []

/-- The call of the marker store that a request makes. -/
def markerCall? : Request → Option Markers.Call
  | marker c => some c
  | _ => none

/-- The markers change by the request's call alone. -/
theorem run_markers (r : Request) (s : Session) :
    (r.run s).markers = r.markerCall?.elim s.markers (·.run s.markers) := by
  cases r with
  | marker c => rw [run, afterMarker_eq]; rfl
  | statement c => rw [run, afterStatement_eq]; rfl
  | find path context provider => rw [run, find_session]; rfl
  | registerStatement snapshot p =>
      rw [run]
      obtain ⟨-, hsession⟩ | ⟨target, -, -, hsession⟩ := registerStatement_cases snapshot p s <;> rw [hsession] <;> rfl
  | resolveStatement id snapshot => rfl
  | findStatements path snapshot nested provider =>
      rw [run]
      obtain ⟨-, hsession⟩ | ⟨targets, -, hsession⟩ := findStatements_cases path snapshot nested provider s <;>
        rw [hsession] <;> rfl
  | edit e => rfl
  | setStyle style => rfl
  | addFlags flags => rfl
  | dropFlags flags => rfl

/-- The statements stay as they are, or one call is made, which returns the ids that the request returns. -/
theorem run_statements (r : Request) (s : Session) :
    ((r.run s).statements = s.statements ∧ r.issued s = []) ∨
      ∃ c : Statements.Call, (r.run s).statements = c.run s.statements ∧
        r.issued s = (c.added s.statements).map Statement.id := by
  cases r with
  | marker c => exact .inl ⟨by rw [run, afterMarker_eq], rfl⟩
  | statement c => exact .inr ⟨c, by rw [run, afterStatement_eq], rfl⟩
  | find path context provider => exact .inl ⟨by rw [run, find_session], rfl⟩
  | registerStatement snapshot p =>
      rw [run, issued]
      obtain ⟨⟨e, hresult⟩, hsession⟩ | ⟨target, -, hresult, hsession⟩ := registerStatement_cases snapshot p s
      · rw [hresult, hsession]
        exact .inl ⟨rfl, rfl⟩
      · rw [hresult, hsession]
        exact .inr ⟨.register target (snapshot.file.getD []) s.name, rfl, rfl⟩
  | resolveStatement id snapshot => exact .inr ⟨.lookup id, rfl, rfl⟩
  | findStatements path snapshot nested provider =>
      rw [run, issued]
      obtain ⟨⟨e, hresult⟩, hsession⟩ | ⟨targets, hresult, hsession⟩ :=
        findStatements_cases path snapshot nested provider s
      · rw [hresult, hsession]
        exact .inl ⟨rfl, rfl⟩
      · rw [hresult, hsession]
        exact .inr ⟨.registerAll targets (snapshot.file.getD []) s.name, rfl, rfl⟩
  | edit e => exact .inl ⟨rfl, rfl⟩
  | setStyle style => exact .inl ⟨rfl, rfl⟩
  | addFlags flags => exact .inl ⟨rfl, rfl⟩
  | dropFlags flags => exact .inl ⟨rfl, rfl⟩

end Request

/-! ## Runs -/

/-- A session, and the ids of statements that were returned so far. -/
structure History where
  session : Session
  issued : List Text

/-- The run goes on with a request. -/
def History.after (h : History) (r : Request) : History where
  session := r.run h.session
  issued := h.issued ++ r.issued h.session

/-- A run of a new session. -/
def history (name : Text) (rs : List Request) : History := rs.foldl History.after ⟨{ name := name }, []⟩

/-- The markers of a run are those of the run of its marker calls. -/
theorem markers_history (name : Text) (rs : List Request) :
    (history name rs).session.markers = (Markers.history 100 (rs.filterMap Request.markerCall?)).markers := by
  induction rs using List.reverseRecOn with
  | nil => rfl
  | append_singleton rs r ih =>
      rw [history, List.foldl_concat, List.filterMap_append]
      show (r.run (history name rs).session).markers = _
      rw [r.run_markers, ih]
      cases hcall : r.markerCall? with
      | none =>
          rw [List.filterMap_cons_none hcall, List.filterMap_nil, List.append_nil]
          rfl
      | some c =>
          rw [List.filterMap_cons_some hcall, List.filterMap_nil]
          exact congrArg Markers.History.markers (List.foldl_concat Markers.History.after _ c _).symm

/-- A run of a session is a run of its registry. -/
theorem exists_history (name : Text) (rs : List Request) :
    ∃ cs, (history name rs).session.statements = (Statements.history 10000 cs).statements ∧
      (history name rs).issued = (Statements.history 10000 cs).issued := by
  induction rs using List.reverseRecOn with
  | nil => exact ⟨[], rfl, rfl⟩
  | append_singleton rs r ih =>
      obtain ⟨cs, hstatements, hissued⟩ := ih
      rw [history, List.foldl_concat]
      show ∃ cs, (r.run (history name rs).session).statements = _ ∧
        (history name rs).issued ++ r.issued (history name rs).session = _
      obtain ⟨hrun, hnone⟩ | ⟨c, hrun, hids⟩ := r.run_statements (history name rs).session
      · refine ⟨cs, hrun.trans hstatements, ?_⟩
        rw [hnone, List.append_nil, hissued]
      · refine ⟨cs ++ [c], ?_, ?_⟩
        · rw [hrun, hstatements]
          exact congrArg Statements.History.statements (List.foldl_concat Statements.History.after _ c cs).symm
        · rw [hids, hissued, hstatements]
          exact congrArg Statements.History.issued (List.foldl_concat Statements.History.after _ c cs).symm

end TreeQuery.Session
