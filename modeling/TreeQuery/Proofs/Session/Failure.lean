import TreeQuery.Proofs.Result
import TreeQuery.Proofs.Session.Reference

/-!
# Requests that fail

A request can fail at different depths: for want of room, because the text is no path, in the test of a node, or at the
first of several nodes that lies outside the snapshot. Each of these comes before anything is written, so a request
that fails leaves no trace in the session.

* `Action.result_bind`, `attach_result`, `registerStatement_result`, `find_result`, `findStatements_result`: what
  composed operations return;
* `FirstOutside`, `mapM_refer_eq_error`: referring to several nodes fails at the first one outside;
* `Request.failure?`, `Request.Fails`: how a request fails, and the causes of failure;
* `Request.failure?_eq_some`, `Request.run_of_failure?`: these are all causes, and nothing changes;
* `Atomic`, `history_atomic`: in every run, a request that fails can be left out.
-/

namespace TreeQuery.Session

set_option autoImplicit false

variable {s : Session} {snapshot : Snapshot} {e : Failure}

/-! ## Results -/

theorem Action.result_bind {α β : Type} (x : Action α) (f : α → Action β) (s : Session) :
    ((x >>= f) s).result = (x s).result >>= fun a => (f a (x s).session).result := by
  cases houtcome : x s with
  | mk result session log =>
      cases result with
      | error e =>
          rw [bind_of_error houtcome]
          rfl
      | ok a =>
          rw [bind_of_ok houtcome]
          rfl

theorem attach_result (id : Text) (snapshot : Snapshot) (p : Place) (s : Session) :
    (attach id snapshot p s).result =
      refer snapshot p >>= fun target => .ok (s.markers.attach id target snapshot.file).1 := by
  unfold attach
  rw [Action.result_bind]
  rfl

theorem registerStatement_result (snapshot : Snapshot) (p : Place) (s : Session) :
    (registerStatement snapshot p s).result =
      refer snapshot p >>= fun target => .ok (s.statements.register target (snapshot.file.getD []) s.name).1 := by
  unfold registerStatement
  simp only [Action.result_bind]
  rfl

/-! ## References to several nodes -/

/-- Of the nodes, `n` is the first that lies outside the snapshot. -/
inductive FirstOutside (snapshot : Snapshot) :
    List snapshot.document.tree.Node → snapshot.document.tree.Node → Prop where
  | here {n : snapshot.document.tree.Node} {ns : List snapshot.document.tree.Node} :
    ¬ snapshot.Inside ⟨snapshot.document, n⟩ → FirstOutside snapshot (n :: ns) n
  | later {k n : snapshot.document.tree.Node} {ns : List snapshot.document.tree.Node} :
    snapshot.Inside ⟨snapshot.document, k⟩ → FirstOutside snapshot ns n → FirstOutside snapshot (k :: ns) n

theorem refer_eq_error {p : Place} : refer snapshot p = .error e ↔
    ¬ snapshot.Inside p ∧ e = .outside (describe p.node) snapshot.id := by
  by_cases h : snapshot.Inside p
  · obtain ⟨r, hr⟩ := refer_of_inside h
    rw [hr]
    exact ⟨nofun, fun h' => absurd h h'.1⟩
  · rw [refer_of_not_inside h, Except.error.injEq]
    exact ⟨fun h' => ⟨h, h'.symm⟩, fun h' => h'.2.symm⟩

theorem mapM_refer_eq_error {ns : List snapshot.document.tree.Node} :
    (ns.mapM fun n => refer snapshot ⟨snapshot.document, n⟩) = .error e ↔
      ∃ n, FirstOutside snapshot ns n ∧ e = .outside (describe n) snapshot.id := by
  induction ns with
  | nil => exact ⟨nofun, nofun⟩
  | cons k ns ih =>
      rw [List.mapM_cons]
      by_cases hk : snapshot.Inside ⟨snapshot.document, k⟩
      · obtain ⟨r, hr⟩ := refer_of_inside hk
        rw [hr, ok_bind]
        refine (bind_ok_eq_error.trans ih).trans (exists_congr fun n => and_congr_left fun _ => ?_)
        refine ⟨.later hk, fun h => ?_⟩
        cases h with
        | here hn => exact absurd hk hn
        | later _ h => exact h
      · rw [refer_of_not_inside hk]
        constructor
        · exact fun h => ⟨k, .here hk, (Except.error.inj h).symm⟩
        · rintro ⟨n, hn, rfl⟩
          cases hn with
          | here _ => rfl
          | later hk' _ => exact absurd hk' hk

/-! ## How requests fail -/

/-- Why an operation failed, if it did. -/
def Outcome.failure? {α : Type} (o : Outcome α) : Option Failure :=
  match o.result with
  | .error e => some e
  | .ok _ => none

theorem Outcome.failure?_eq_some {α : Type} {o : Outcome α} : o.failure? = some e ↔ o.result = .error e := by
  unfold failure?
  cases o.result with
  | error e' => rw [Option.some.injEq, Except.error.injEq]
  | ok a => exact ⟨nofun, nofun⟩

/-- How a call of the marker store fails. -/
def markerFailure? (s : Session) : Markers.Call → Option Failure
  | .create label now => (createMarker label now s).failure?
  | .attach id snapshot p => (attach id snapshot p s).failure?
  | .remove id => (Action.onMarkers (·.remove id) s).failure?
  | .clear => (Action.onMarkers (·.clear) s).failure?
  | .expire time => (expireMarkers time s).failure?

/-- How a call of the registry fails. -/
def statementFailure? (s : Session) : Statements.Call → Option Failure
  | .register target file name => (Action.onStatements (·.register target file name) s).failure?
  | .registerAll targets file name => (registerAll targets file name s).failure?
  | .lookup id => (Action.onStatements (·.lookup id) s).failure?
  | .setCapacity capacity => (Action.onStatements (fun r => ((), r.setCapacity capacity)) s).failure?
  | .clear => (Action.onStatements (·.clear) s).failure?

variable [Regex.Library]

/-- How a request fails. -/
def Request.failure? : Request → Session → Option Failure
  | marker c, s => s.markerFailure? c
  | statement c, s => s.statementFailure? c
  | find path context provider, s => (Session.find path context provider s).failure?
  | registerStatement snapshot p, s => (Session.registerStatement snapshot p s).failure?
  | resolveStatement id snapshot, s => (Session.resolveStatement id snapshot s).failure?
  | findStatements path snapshot nested provider, s =>
    (Session.findStatements path snapshot nested provider s).failure?
  | edit _, _ | setStyle _, _ | addFlags _, _ | dropFlags _, _ => none

/-! ## Causes -/

/-- The text is no path, or the path meets a node whose test fails. -/
inductive SearchFails (s : Session) {t : Tree} (path : Text) (context : t.Node) (provider : Option (Provider t)) :
    Failure → Prop where
  | notPath {e : SyntaxError} : Path.parse (s.hasFlags strictFlag) path = .error e →
    SearchFails s path context provider (.notPath path e)
  | test {p : Path} {e : TestError} : Path.parse (s.hasFlags strictFlag) path = .ok p →
    Semantics.evaluate ⟨s.vocabulary, provider⟩ p context = .error e → SearchFails s path context provider (.test e)

/-- What makes a request fail, and how. -/
inductive Request.Fails (s : Session) : Request → Failure → Prop where
  | full (label : Option Text) (now : Int) : s.markers.hasRoom = false →
    Fails s (.marker (.create label now)) (.full s.markers.capacity)
  /-- Whether there is such a marker or not. -/
  | attached (id : Text) {snapshot : Snapshot} {p : Place} : ¬ snapshot.Inside p →
    Fails s (.marker (.attach id snapshot p)) (.outside (describe p.node) snapshot.id)
  | registered {snapshot : Snapshot} {p : Place} : ¬ snapshot.Inside p →
    Fails s (.registerStatement snapshot p) (.outside (describe p.node) snapshot.id)
  | search {t : Tree} {path : Text} {context : t.Node} {provider : Option (Provider t)} {e : Failure} :
    s.SearchFails path context provider e → Fails s (.find path context provider) e
  | searched {path : Text} {snapshot : Snapshot} (nested : Bool) {provider : Option (Provider snapshot.document.tree)}
    {e : Failure} : s.SearchFails path snapshot.root provider e →
    Fails s (.findStatements path snapshot nested provider) e
  | selected {path : Text} {snapshot : Snapshot} {nested : Bool} {provider : Option (Provider snapshot.document.tree)}
    {nodes : List snapshot.document.tree.Node} {n : snapshot.document.tree.Node} :
    (Session.find path snapshot.root provider s).result = .ok nodes →
    FirstOutside snapshot (s.statementsAmong nested nodes) n →
    Fails s (.findStatements path snapshot nested provider) (.outside (describe n) snapshot.id)

theorem find_result {t : Tree} (path : Text) (context : t.Node) (provider : Option (Provider t)) (s : Session) :
    (find path context provider s).result = s.parse path >>= fun p => s.select p context provider := by
  unfold find
  simp only [Action.result_bind]
  show (s.parse path >>= fun p => s.select p context provider >>= pure) = _
  simp only [bind_pure]

theorem findStatements_result (path : Text) (snapshot : Snapshot) (nested : Bool)
    (provider : Option (Provider snapshot.document.tree)) (s : Session) :
    (findStatements path snapshot nested provider s).result =
      (find path snapshot.root provider s).result >>= fun nodes =>
        ((s.statementsAmong nested nodes).mapM fun n => refer snapshot ⟨snapshot.document, n⟩) >>= fun targets =>
          .ok (s.statements.registerAll targets (snapshot.file.getD []) s.name).1 := by
  unfold findStatements
  simp only [Action.result_bind, find_session]
  rfl

theorem find_eq_error {t : Tree} {path : Text} {context : t.Node} {provider : Option (Provider t)} :
    (find path context provider s).result = .error e ↔ s.SearchFails path context provider e := by
  simp only [find_result, bind_eq_error, parse, select, mapError_eq_error, mapError_eq_ok]
  constructor
  · rintro (⟨e, h, rfl⟩ | ⟨p, hparse, e, h, rfl⟩)
    · exact .notPath h
    · exact .test hparse h
  · rintro (⟨h⟩ | ⟨hparse, h⟩)
    · exact .inl ⟨_, h, rfl⟩
    · exact .inr ⟨_, hparse, _, h, rfl⟩

theorem findStatements_eq_error {path : Text} {nested : Bool} {provider : Option (Provider snapshot.document.tree)} :
    (findStatements path snapshot nested provider s).result = .error e ↔
      s.SearchFails path snapshot.root provider e ∨
        ∃ nodes, (find path snapshot.root provider s).result = .ok nodes ∧
          ∃ n, FirstOutside snapshot (s.statementsAmong nested nodes) n ∧ e = .outside (describe n) snapshot.id := by
  rw [findStatements_result, bind_eq_error, find_eq_error]
  refine or_congr_right (exists_congr fun nodes => and_congr_right fun _ => ?_)
  rw [bind_ok_eq_error, mapM_refer_eq_error]

theorem findStatements_session_of_error {path : Text} {nested : Bool}
    {provider : Option (Provider snapshot.document.tree)}
    (h : (findStatements path snapshot nested provider s).result = .error e) :
    (findStatements path snapshot nested provider s).session = s := by
  obtain ⟨-, hsession⟩ | ⟨targets, hresult, -⟩ := findStatements_cases path snapshot nested provider s
  · exact hsession
  · cases hresult.symm.trans h

theorem markerFailure?_eq_some {c : Markers.Call} : s.markerFailure? c = some e ↔ Request.Fails s (.marker c) e := by
  cases c with
  | create label now =>
      rw [markerFailure?, Outcome.failure?_eq_some, Markers.createMarker_eq_error]
      constructor
      · rintro ⟨hroom, rfl⟩
        exact .full label now hroom
      · intro h
        cases h with
        | full _ _ hroom => exact ⟨hroom, rfl⟩
  | attach id snapshot p =>
      rw [markerFailure?, Outcome.failure?_eq_some, attach_result, bind_ok_eq_error, refer_eq_error]
      constructor
      · rintro ⟨hp, rfl⟩
        exact .attached id hp
      · intro h
        cases h with
        | attached _ hp => exact ⟨hp, rfl⟩
  | remove id => exact ⟨nofun, nofun⟩
  | clear => exact ⟨nofun, nofun⟩
  | expire time => exact ⟨nofun, nofun⟩

namespace Request

variable {q : Request}

/-- A request fails for one of these causes, and with each of them it does. -/
theorem failure?_eq_some : q.failure? s = some e ↔ q.Fails s e := by
  cases q with
  | marker c => exact markerFailure?_eq_some
  | statement c => cases c <;> exact ⟨nofun, nofun⟩
  | find path context provider =>
      rw [failure?, Outcome.failure?_eq_some, find_eq_error]
      constructor
      · exact .search
      · intro h
        cases h with
        | search h => exact h
  | registerStatement snapshot p =>
      rw [failure?, Outcome.failure?_eq_some, registerStatement_result, bind_ok_eq_error, refer_eq_error]
      constructor
      · rintro ⟨hp, rfl⟩
        exact .registered hp
      · intro h
        cases h with
        | registered hp => exact ⟨hp, rfl⟩
  | resolveStatement id snapshot => exact ⟨nofun, nofun⟩
  | findStatements path snapshot nested provider =>
      rw [failure?, Outcome.failure?_eq_some, findStatements_eq_error]
      constructor
      · rintro (h | ⟨nodes, hnodes, n, hn, rfl⟩)
        · exact .searched nested h
        · exact .selected hnodes hn
      · intro h
        cases h with
        | searched _ h => exact .inl h
        | selected hnodes hn => exact .inr ⟨_, hnodes, _, hn, rfl⟩
  | edit e => exact ⟨nofun, nofun⟩
  | setStyle style => exact ⟨nofun, nofun⟩
  | addFlags flags => exact ⟨nofun, nofun⟩
  | dropFlags flags => exact ⟨nofun, nofun⟩

/-- A request that fails changes nothing. -/
theorem run_of_failure? (h : q.failure? s = some e) : q.run s = s := by
  cases failure?_eq_some.mp h with
  | full label now hroom =>
      rw [run, afterMarker, createMarker]
      obtain ⟨-, hcreate⟩ | ⟨hsize, -⟩ := s.markers.create?_cases label now
      · rw [hcreate]
      · exact absurd hsize (of_decide_eq_false hroom)
  -- The reference is made before the marker is looked for, so nothing depends on the id.
  | attached id hp =>
      rw [run, afterMarker, attach, Action.bind_of_error (Action.ask_eq (refer_of_not_inside hp))]
  | registered hp =>
      rw [run, Session.registerStatement, Action.bind_of_error (Action.ask_eq (refer_of_not_inside hp))]
  | search _ => exact find_session _ _ _ s
  | searched _ _ => exact findStatements_session_of_error (Outcome.failure?_eq_some.mp h)
  | selected _ _ => exact findStatements_session_of_error (Outcome.failure?_eq_some.mp h)

/-- A request that fails returns no ids. -/
theorem issued_of_failure? (h : q.failure? s = some e) : q.issued s = [] := by
  cases failure?_eq_some.mp h with
  | full label now hroom => rfl
  | attached id hp => rfl
  | registered hp => rw [issued, Outcome.failure?_eq_some.mp h]; rfl
  | search _ => rfl
  | searched _ _ => rw [issued, Outcome.failure?_eq_some.mp h]; rfl
  | selected _ _ => rw [issued, Outcome.failure?_eq_some.mp h]; rfl

end Request

/-! ## Runs -/

/-- At this point of a run, the request either succeeds or leaves no trace. -/
structure Atomic (h : History) (q : Request) : Prop where
  causes : ∀ e, q.failure? h.session = some e ↔ q.Fails h.session e
  unchanged : ∀ e, q.failure? h.session = some e → q.run h.session = h.session
  /-- The run goes on as if the request had not been made. -/
  forgotten : ∀ e, q.failure? h.session = some e →
    ∀ later : List Request, later.foldl History.after (h.after q) = later.foldl History.after h

/-- **In every run of a session, a request fails exactly if a marker is to be created and there is no room, if a node
outside the snapshot is to be attached to or registered, whether or not there is the marker, or if a search meets a
text that is no path, a test that fails or, when it registers what it selects, a statement outside the snapshot. Then
the session afterwards is the one before, both stores and the ids that they issue next included, and the run goes on
as if the request had not been made.** -/
theorem history_atomic (name : Text) (before : List Request) (q : Request) : Atomic (history name before) q := by
  refine ⟨fun e => Request.failure?_eq_some, fun e => Request.run_of_failure?, fun e h later => ?_⟩
  have hafter : (history name before).after q = history name before := by
    rw [History.after, Request.run_of_failure? h, Request.issued_of_failure? h, List.append_nil]
  rw [hafter]

end TreeQuery.Session
