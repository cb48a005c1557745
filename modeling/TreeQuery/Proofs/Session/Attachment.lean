import TreeQuery.Proofs.Session.Run
import TreeQuery.Proofs.Tree.Reference
import TreeQuery.Regex.Engine

/-!
# Attached markers

A marker that was attached to a node keeps its label, its file and its reference through everything that a session is
asked, until it is attached anew or taken out of the store. So it resolves to its node in the same snapshot, and in
any other to what lies there at the same route and is the same by tag and name.

* `Request.Disturbs`, `Undisturbed`: the requests that attach a marker anew or take it out;
* `get?_run`, `get?_history`: a marker that is not disturbed stays as it is, through one request and through many;
* `attach_eq_true`, `get?_attach`: when a marker is attached, and what it is then;
* `PointsAt`: what a marker that points at a node resolves to;
* `attached_undisturbed`: what an attached marker is and resolves to at every later time.
-/

namespace TreeQuery

set_option autoImplicit false

theorem Markers.get?_eq_some {m : Markers} (hids : (m.entries.map Marker.id).Nodup) {id : Text} {r : Marker} :
    m.get? id = some r ↔ r ∈ m.entries ∧ r.id = id :=
  find?_key_eq_some hids

namespace Session

variable {s : Session} {id : Text} {r : Marker}

/-- A marker can be attached if it exists and the node lies inside the snapshot. -/
theorem attach_eq_true {snapshot : Snapshot} {p : Place} : (attach id snapshot p s).result = .ok true ↔
    (∃ target, snapshot.refer? p = some target) ∧ (s.markers.get? id).isSome := by
  unfold attach
  cases hrefer : snapshot.refer? p with
  | none =>
      rw [Action.bind_of_error (Action.ask_eq (refer_of_none hrefer))]
      exact ⟨nofun, nofun⟩
  | some target =>
      rw [Action.bind_of_ok (Action.ask_eq (refer_of_some hrefer))]
      exact ⟨fun h => ⟨⟨target, rfl⟩, Except.ok.inj h⟩, fun h => congrArg Except.ok h.2⟩

/-- A marker that an expiry leaves in the store is not older than the time of expiry. -/
theorem not_drops_of_expire (hids : (s.markers.entries.map Marker.id).Nodup) (hr : r ∈ s.markers.entries) {time : Int}
    (hfound : ((expireMarkers time s).session.markers.get? r.id).isSome) : ¬ (Markers.Call.expire time).drops r := by
  obtain ⟨d, hd⟩ := Option.isSome_iff_exists.mp hfound
  have hmem : d ∈ ((Markers.Call.expire time).run s.markers).entries := List.mem_of_find?_eq_some hd
  have hid := List.find?_some hd
  obtain rfl : d = r := List.inj_on_of_nodup_map hids (List.mem_of_mem_filter hmem) hr (beq_iff_eq.mp hid)
  exact (Markers.Call.exists_detached_run hr).mp ⟨d, hmem, rfl⟩

/-- A marker that is attached points at the node and is as it was created otherwise. -/
theorem get?_attach {m : Markers} (hids : (m.entries.map Marker.id).Nodup) {target : Reference} {file : Option Text}
    (hget : m.get? id = some r) :
    (m.attach id target file).2.get? id = some { r with target := some target, file := file } := by
  obtain ⟨hr, rfl⟩ := (Markers.get?_eq_some hids).mp hget
  have hids' : ((m.attach r.id target file).2.entries.map Marker.id).Nodup := by
    have hdetached := congrArg (List.map Marker.id) (m.detached_attach r.id target file)
    rw [List.map_map, List.map_map] at hdetached
    exact hdetached ▸ hids
  exact (Markers.get?_eq_some hids').mpr ⟨List.mem_map.mpr ⟨r, hr, if_pos rfl⟩, rfl⟩

/-- The marker `r` has the id and points at a node of a snapshot, wherever it is resolved. -/
structure PointsAt (s : Session) (id : Text) (r : Marker) (snapshot : Snapshot) (n : snapshot.document.tree.Node) :
    Prop where
  found : s.markers.get? id = some r
  file : r.file = snapshot.file
  resolved : s.resolveMarker id snapshot = some n
  /-- Another snapshot has to have a node at the same route with the same tag and, where there was a name, that. -/
  elsewhere : ∀ (other : Snapshot) (m : other.document.tree.Node), s.resolveMarker id other = some m ↔
    (∃ route, n.route = snapshot.root.route ++ route ∧ m.route = other.root.route ++ route) ∧
      m.tag = n.tag ∧ ∀ x ∈ n.name, m.name = some x

/-- A marker with the reference to a node points at it. -/
theorem pointsAt_of_refer? {snapshot : Snapshot} {n : snapshot.document.tree.Node} {target : Reference}
    (hrefer : snapshot.refer? ⟨snapshot.document, n⟩ = some target)
    (hget : s.markers.get? id = some { r with target := some target, file := snapshot.file }) :
    PointsAt s id { r with target := some target, file := snapshot.file } snapshot n := by
  have hresolve : ∀ other : Snapshot, s.resolveMarker id other = other.resolve? target := by
    intro other
    rw [resolveMarker, hget]
    rfl
  refine ⟨hget, rfl, ?_, fun other m => ?_⟩
  · rw [hresolve]
    exact Snapshot.resolve?_self hrefer
  · rw [hresolve]
    exact Snapshot.resolve?_of_refer? hrefer

section Runs

variable [Regex.Library]

/-- In the session `s`, the request attaches the marker or takes it out. -/
def Request.Disturbs (id : Text) (s : Session) : Request → Prop
  | marker (.attach other snapshot p) => other = id ∧ (Session.attach other snapshot p s).result = .ok true
  | marker (.remove other) => other = id
  | marker .clear => True
  | marker (.expire time) =>
    (s.markers.get? id).isSome ∧ ((expireMarkers time s).session.markers.get? id).isNone
  | _ => False

/-- None of the requests, made one after the other, attaches the marker or takes it out. -/
def Undisturbed (id : Text) : Session → List Request → Prop
  | _, [] => True
  | s, q :: qs => ¬ q.Disturbs id s ∧ Undisturbed id (q.run s) qs

/-- A request that does not disturb a marker leaves it as it is. -/
theorem get?_run {q : Request} (hids : (s.markers.entries.map Marker.id).Nodup)
    (hids' : ((q.run s).markers.entries.map Marker.id).Nodup) (hget : s.markers.get? id = some r)
    (hq : ¬ q.Disturbs id s) : (q.run s).markers.get? id = some r := by
  obtain ⟨hr, rfl⟩ := (Markers.get?_eq_some hids).mp hget
  refine (Markers.get?_eq_some hids').mpr ⟨?_, rfl⟩
  rw [q.run_markers]
  cases hcall : q.markerCall? with
  | none => exact hr
  | some c =>
      obtain rfl : q = .marker c := by
        cases q <;> cases hcall
        rfl
      refine Markers.Call.mem_run hr ?_ ?_
      · cases c with
        | create label now => exact not_false
        | attach other snapshot p => exact not_false
        | remove other => exact fun h => hq h.symm
        | clear => exact fun _ => hq trivial
        | expire time =>
            refine not_drops_of_expire hids hr (Option.isSome_iff_ne_none.mpr fun hnone => hq ⟨?_, ?_⟩)
            · rw [hget]
              rfl
            · rw [hnone]
              rfl
      · rintro snapshot p rfl
        cases hrefer : snapshot.refer? p with
        | none => rfl
        | some target =>
            have hattach := attach_eq_true.mpr ⟨⟨target, hrefer⟩, Option.isSome_iff_exists.mpr ⟨r, hget⟩⟩
            exact absurd ⟨rfl, hattach⟩ hq

theorem nodup_ids_history (name : Text) (rs : List Request) :
    ((history name rs).session.markers.entries.map Marker.id).Nodup := by
  rw [markers_history]
  exact (Markers.sound_history _ _).nodup_ids

/-- As long as requests do not disturb a marker, it stays as it is. -/
theorem get?_history (name : Text) (rs qs : List Request) (hget : (history name rs).session.markers.get? id = some r)
    (hqs : Undisturbed id (history name rs).session qs) :
    (history name (rs ++ qs)).session.markers.get? id = some r := by
  induction qs generalizing rs with
  | nil => rwa [List.append_nil]
  | cons q qs ih =>
      obtain ⟨hq, hqs⟩ := hqs
      have hids' := nodup_ids_history name (rs ++ [q])
      rw [history, List.foldl_concat] at hids'
      have hget' := get?_run (nodup_ids_history name rs) hids' hget hq
      rw [← List.singleton_append, ← List.append_assoc]
      refine ih (rs ++ [q]) ?_ ?_
      · rw [history, List.foldl_concat]
        exact hget'
      · rw [history, List.foldl_concat]
        exact hqs

/-- **In every run of a session, a marker that was attached to a node of a snapshot, and since then was neither
attached anew nor taken out of the store, has the label with which it was created and the file of the snapshot. It
resolves to the node in this snapshot, and in any snapshot to the node at the same route from the root, if that has
the same tag and, where the node had a name, the same name.** -/
theorem attached_undisturbed (name : Text) (before later : List Request) (id : Text) (snapshot : Snapshot) (p : Place)
    (hattach : (attach id snapshot p (history name before).session).result = .ok true)
    (hlater : Undisturbed id (attach id snapshot p (history name before).session).session later) :
    ∃ n r, p = ⟨snapshot.document, n⟩ ∧
      PointsAt (history name (before ++ .marker (.attach id snapshot p) :: later)).session id r snapshot n ∧
      ∃ made ∈ (Markers.history 100 (before.filterMap Request.markerCall?)).created,
        made.id = id ∧ made.label = r.label := by
  obtain ⟨⟨target, hrefer⟩, hfound⟩ := attach_eq_true.mp hattach
  obtain ⟨n, route, rfl, -, -⟩ := Snapshot.refer?_eq_some.mp hrefer
  obtain ⟨r, hget⟩ := Option.isSome_iff_exists.mp hfound
  have hids := nodup_ids_history name before
  obtain ⟨hr, hid⟩ := (Markers.get?_eq_some hids).mp hget
  refine ⟨n, { r with target := some target, file := snapshot.file }, rfl, pointsAt_of_refer? hrefer ?_,
    r.detached, ?_, hid, rfl⟩
  · rw [List.append_cons]
    refine get?_history name _ later ?_ ?_
    · rw [history, List.foldl_concat]
      show (attach id snapshot ⟨snapshot.document, n⟩ (history name before).session).session.markers.get? id = _
      rw [attach_session, Markers.Call.run, hrefer]
      exact get?_attach hids hget
    · rw [history, List.foldl_concat]
      exact hlater
  · rw [markers_history] at hr
    exact (Markers.sound_history _ _).listed.subset (List.mem_map_of_mem hr)

end Runs

open scoped Regex.Engine

/-- A marker is attached to a loop, then another one comes and goes and older ones expire; the loop is found in a later
snapshot. -/
theorem attached_undisturbed_loop :
    (history "s" ([.marker (.create (some "loop") 5)] ++ .marker (.attach "mark-1"
        ⟨1, ⟨1, .node { tag := "block" } [.node { tag := "while" } []]⟩, .top _, some "f"⟩
        ⟨⟨1, .node { tag := "block" } [.node { tag := "while" } []]⟩, ⟨[0], rfl⟩⟩) ::
        [.marker (.create none 6), .marker (.expire 5), .marker (.remove "mark-2"),
          .statement .clear])).session.resolveMarker "mark-1"
      ⟨2, ⟨2, .node { tag := "block" } [.node { tag := "while" } [], .node { tag := "if" } []]⟩, .top _, none⟩ =
        some ⟨[0], rfl⟩ := by
  obtain ⟨n, r, hp, hpoints, -⟩ := attached_undisturbed "s" [.marker (.create (some "loop") 5)]
    [.marker (.create none 6), .marker (.expire 5), .marker (.remove "mark-2"), .statement .clear] "mark-1"
    ⟨1, ⟨1, .node { tag := "block" } [.node { tag := "while" } []]⟩, .top _, some "f"⟩
    ⟨⟨1, .node { tag := "block" } [.node { tag := "while" } []]⟩, ⟨[0], rfl⟩⟩ rfl
    ⟨not_false, ⟨fun h => Bool.noConfusion h.2, ⟨by unfold Request.Disturbs; decide, ⟨not_false, trivial⟩⟩⟩⟩
  cases hp
  exact (hpoints.elsewhere _ _).mpr ⟨⟨[0], rfl, rfl⟩, rfl, nofun⟩

end Session

end TreeQuery
