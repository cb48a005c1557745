import TreeQuery.Proofs.Session.Run
import TreeQuery.Proofs.Tree.Reference
import TreeQuery.Regex.Engine

/-!
# Registering what a path selects

In a snapshot of a whole tree there is a reference to every node, so that all statements that a path selects are
registered in one batch. The batch stands in front of the registry, which has grown if it has to, and lookups only
change the order; so each of the new ids resolves to its node, however the ids are looked up.

* `resolving`, `resolving_perm`, `resolveStatement_resolving`: what was registered is found, however ids are looked up;
* `Registers`: statements are registered as records;
* `mapM_refer`, `registers_registerAll`: the references to nodes of a whole tree, and registering these;
* `findStatements_registers`: in every run, a search registers exactly the statements among the nodes that it selects.
-/

namespace TreeQuery

set_option autoImplicit false

/-- What stands at the same place of two lists agrees if the lists do. -/
theorem eq_of_mem_zip {α β γ : Type} {f : α → γ} {g : β → γ} {as : List α} {bs : List β} (h : as.map f = bs.map g)
    {a : α} {b : β} (hab : (a, b) ∈ as.zip bs) : f a = g b := by
  obtain ⟨i, hi⟩ := List.mem_iff_getElem?.mp hab
  obtain ⟨ha, hb⟩ := List.getElem?_zip_eq_some.mp hi
  have hplace := congrArg (·[i]?) h
  simp only [List.getElem?_map, ha, hb] at hplace
  exact Option.some.inj hplace

namespace Session

variable {s : Session} {snapshot : Snapshot}

/-! ## Lookups -/

/-- The session after statements were resolved one after the other. -/
def resolving (s : Session) (snapshot : Snapshot) (ids : List Text) : Session :=
  ids.foldl (fun s id => (resolveStatement id snapshot s).session) s

/-- However often statements are resolved, the registry only changes its order. -/
theorem resolving_perm (hids : (s.statements.entries.map Statement.id).Nodup) (snapshot : Snapshot)
    (ids : List Text) :
    (s.resolving snapshot ids).statements.entries.Perm s.statements.entries := by
  induction ids generalizing s with
  | nil => exact .refl _
  | cons id ids ih =>
      have hperm : (s.statements.lookup id).2.entries.Perm s.statements.entries := Statements.lookup_perm hids id
      have hids' : ((s.statements.lookup id).2.entries.map Statement.id).Nodup :=
        (hperm.map Statement.id).nodup_iff.mpr hids
      exact (ih (s := (resolveStatement id snapshot s).session) hids').trans hperm

theorem resolveStatement_resolving (hids : (s.statements.entries.map Statement.id).Nodup) {e : Statement}
    (he : e ∈ s.statements.entries) (ids : List Text) :
    (resolveStatement e.id snapshot (s.resolving snapshot ids)).result = .ok (snapshot.resolve? e.target) := by
  have hperm := resolving_perm hids snapshot ids
  have hlookup := Statements.lookup_of_mem ((hperm.map Statement.id).nodup_iff.mpr hids) (hperm.mem_iff.mpr he)
  show Except.ok (((s.resolving snapshot ids).statements.lookup e.id).1.bind fun e => snapshot.resolve? e.target) = _
  rw [hlookup]
  rfl

/-! ## Statements that a path selects -/

/-- Statements of a snapshot were registered as `records`, which led from a run to the session `after`. -/
structure Registers (h : History) (snapshot : Snapshot) (ns : List snapshot.document.tree.Node)
    (records : List Statement) (after : Session) : Prop where
  /-- The records stand for the statements, in the same order. -/
  resolved : records.map (fun e => snapshot.resolve? e.target) = ns.map some
  /-- The ids go on where those before them ended, of which there is one for each serial. -/
  consecutive : records.map Statement.id = (List.range' (h.issued.length + 1) records.length).map Statements.idOf
  fresh : ∀ e ∈ records, e.id ∉ h.issued
  origin : ∀ e ∈ records, e.file = snapshot.file.getD [] ∧ e.session = h.session.name
  /-- Whatever ids were resolved before, each of the new ones resolves to its statement. -/
  found : ∀ (ids : List Text) (e : Statement) (n : snapshot.document.tree.Node), (e, n) ∈ records.zip ns →
    (resolveStatement e.id snapshot (after.resolving snapshot ids)).result = .ok (some n)
  capacity : after.statements.capacity = if h.session.statements.capacity = 0 then 0
    else max h.session.statements.capacity records.length

theorem mapM_refer (hroot : snapshot.root = .top snapshot.document.tree) (ns : List snapshot.document.tree.Node) :
    ns.mapM (fun n => refer snapshot ⟨snapshot.document, n⟩) =
      .ok (ns.map fun n => ⟨snapshot.id, n.route, n.tag, n.name⟩) := by
  have hrefer : (fun n => refer snapshot ⟨snapshot.document, n⟩) =
      fun n => (pure ⟨snapshot.id, n.route, n.tag, n.name⟩ : Except Failure Reference) := by
    funext n
    exact refer_of_some (Snapshot.refer?_of_root_eq_top hroot n)
  rw [hrefer, List.mapM_pure]
  rfl

/-- A batch of references to statements registers these. -/
theorem registers_registerAll {h : History} {k : Statements.History} (hk : k.Sound)
    (hstatements : h.session.statements = k.statements) (hissued : h.issued = k.issued)
    {ns : List snapshot.document.tree.Node} {targets : List Reference}
    (htargets : targets.map snapshot.resolve? = ns.map some) :
    Registers h snapshot ns (h.session.statements.registerAll targets (snapshot.file.getD []) h.session.name).1
      { h.session with statements :=
        (h.session.statements.registerAll targets (snapshot.file.getD []) h.session.name).2.1 } := by
  rw [hstatements]
  let c : Statements.Call := .registerAll targets (snapshot.file.getD []) h.session.name
  have hids : ((c.run k.statements).entries.map Statement.id).Nodup := (hk.after c).recent.nodup_ids
  have hresolved : (c.added k.statements).map (fun e => snapshot.resolve? e.target) = ns.map some := by
    have hrecords : (c.added k.statements).map Statement.target = targets :=
      Statements.map_target_registerAll k.statements targets (snapshot.file.getD []) h.session.name
    rw [← htargets, ← hrecords, List.map_map]
    rfl
  refine ⟨hresolved, ?_, fun e he => ?_, fun e he => ?_, fun ids e n hen => ?_, ?_⟩
  · rw [hissued, ← hk.nextSerial_eq]
    exact (c.added_ids k.statements).1
  · rw [hissued]
    exact hk.added_fresh (c := c) he
  · obtain ⟨hfile, hsession, -⟩ := Statements.mem_registerAll he
    exact ⟨hfile, hsession⟩
  · obtain ⟨-, -, he⟩ := Statements.mem_registerAll (List.of_mem_zip hen).1
    exact (resolveStatement_resolving hids he ids).trans (congrArg Except.ok (eq_of_mem_zip hresolved hen))
  · show (k.statements.registerAll targets _ _).2.1.capacity = _
    rw [Statements.registerAll_eq, hstatements, Statements.extended, List.length_reverse]
    rfl

/-- **In every run of a session, if a path is read and evaluated on a snapshot of a whole tree, then exactly the
statements among the nodes that it selects, the nested ones only if they are wanted, are registered in their order,
under new and consecutive ids, with the file of the snapshot and the name of the session. All of these ids resolve
afterwards, and the capacity has grown just so far that the batch fits.** -/
theorem findStatements_registers [Regex.Library] (name : Text) (rs : List Request) (path : Text)
    (snapshot : Snapshot) (nested : Bool) (provider : Option (Provider snapshot.document.tree))
    (nodes : List snapshot.document.tree.Node) (hroot : snapshot.root = .top snapshot.document.tree)
    (hfind : (find path snapshot.root provider (history name rs).session).result = .ok nodes) :
    ∃ records, (findStatements path snapshot nested provider (history name rs).session).result = .ok records ∧
      Registers (history name rs) snapshot
        (nodes.filter fun n => (history name rs).session.vocabulary.isStatement n.tag &&
          (nested || !(history name rs).session.naming.isNested n))
        records (findStatements path snapshot nested provider (history name rs).session).session := by
  obtain ⟨cs, hstatements, hissued⟩ := exists_history name rs
  obtain ⟨hresult, hsession⟩ := findStatements_of_ok nested hfind (mapM_refer hroot _)
  refine ⟨_, hresult, ?_⟩
  rw [hsession]
  refine registers_registerAll (Statements.sound_history 10000 cs) hstatements hissued ?_
  rw [List.map_map]
  refine List.map_congr_left fun n _ => ?_
  exact Snapshot.resolve?_self (Snapshot.refer?_of_root_eq_top hroot n)

open scoped Regex.Engine

/-- A registry of one grows for two statements; the one that is nested in the first of them is left out. -/
theorem findStatements_registers_outer :
    ∃ records, (findStatements "//if" ⟨1, ⟨1, .node { tag := "unit" }
        [.node { tag := "if" } [.node { tag := "if" } []], .node { tag := "if" } []]⟩, .top _, some "f"⟩ false none
        (history "s" [.statement (.setCapacity 1)]).session).result = .ok records ∧
      records.map Statement.id = ["stmt-1", "stmt-2"] := by
  obtain ⟨records, hresult, hregisters⟩ := findStatements_registers "s" [.statement (.setCapacity 1)] "//if"
    ⟨1, ⟨1, .node { tag := "unit" } [.node { tag := "if" } [.node { tag := "if" } []], .node { tag := "if" } []]⟩,
      .top _, some "f"⟩ false none [⟨[0], rfl⟩, ⟨[0, 0], rfl⟩, ⟨[1], rfl⟩] rfl (by with_unfolding_all rfl)
  have hlength : records.length = 2 := by
    have hlength := congrArg List.length hregisters.resolved
    rw [List.length_map, List.length_map] at hlength
    exact hlength
  refine ⟨records, hresult, ?_⟩
  rw [hregisters.consecutive, hlength]
  rfl

end Session

end TreeQuery
