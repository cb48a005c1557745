import TreeQuery.Proofs.Store.Call
import TreeQuery.Session.Operations

/-!
# Runs of a marker store

The five operations on a store of markers as one type of calls. Every call but a clearing leaves, of the markers as
they were created, a part of those that were there and of the one that it creates, in this order; so the store lists
its markers in the order of their creation, and their ids are those of different serials.

* `Marker.detached`: a marker as it was created;
* `Call.run`, `Call.added`, `Call.drops`: the store after a call, what it creates and what it takes out;
* `Call.detached_run`, `Call.added_ids`, `Call.size_run`: order, ids and size after a call;
* `Call.mem_run`, `Call.exists_detached_run`: what a call leaves in the store;
* `History`, `history`: a run, with the markers that were created since the last clearing;
* `sound_history`: the invariant of runs;
* `history_keepsMarkers`: ids, order, room and presence in every run.
-/

namespace TreeQuery

set_option autoImplicit false

/-- The marker as it was created. -/
def Marker.detached (r : Marker) : Marker := { r with target := none, file := none }

namespace Markers

variable {m : Markers} {r : Marker}

/-! ## Calls -/

inductive Call where
  | create (label : Option Text) (now : Int)
  | attach (id : Text) (snapshot : Snapshot) (p : Place)
  | remove (id : Text)
  | clear
  | expire (time : Int)

namespace Call

/-- The store after a call; a call that fails does not change it. -/
def run : Call → Markers → Markers
  | create label now, m => (m.create? label now).elim m Prod.snd
  | attach id snapshot p, m => (snapshot.refer? p).elim m fun target => (m.attach id target snapshot.file).2
  | remove id, m => (m.remove id).2
  | clear, m => m.clear.2
  | expire time, m => (m.expire time).2.1

/-- The marker that a call creates, under the id that it returns. -/
def added : Call → Markers → List Marker
  | create label now, m => ((m.create? label now).map fun made => ⟨made.1, label, now, none, none⟩).toList
  | attach .., _ | remove _, _ | clear, _ | expire _, _ => []

/-- The call takes such a marker out of the store. -/
def drops : Call → Marker → Prop
  | remove id, r => r.id = id
  | clear, _ => True
  | expire time, r => r.createdAt < time
  | create .., _ | attach .., _ => False

end Call

/-! ## What a call does -/

theorem create?_cases (m : Markers) (label : Option Text) (now : Int) :
    (m.hasRoom = false ∧ m.create? label now = none) ∨
      m.size < m.capacity ∧ m.create? label now = some (idOf m.nextSerial, { m with
        entries := m.entries ++ [⟨idOf m.nextSerial, label, now, none, none⟩], nextSerial := m.nextSerial + 1 }) := by
  unfold create?
  by_cases h : m.hasRoom = true
  · exact .inr ⟨decide_eq_true_iff.mp h, if_pos h⟩
  · exact .inl ⟨Bool.eq_false_iff.mpr h, if_neg h⟩

theorem detached_attach (m : Markers) (id : Text) (target : Reference) (file : Option Text) :
    (m.attach id target file).2.entries.map Marker.detached = m.entries.map Marker.detached := by
  show (m.entries.map _).map Marker.detached = _
  rw [List.map_map]
  refine List.map_congr_left fun r _ => ?_
  rw [Function.comp_apply]
  split <;> rfl

/-- A marker with another id is not touched when one is attached. -/
theorem mem_attach (hr : r ∈ m.entries) {id : Text} (hid : r.id ≠ id) (target : Reference) (file : Option Text) :
    r ∈ (m.attach id target file).2.entries :=
  List.mem_map.mpr ⟨r, hr, if_neg hid⟩

namespace Call

@[simp] theorem run_capacity (c : Call) (m : Markers) : (c.run m).capacity = m.capacity := by
  cases c with
  | create label now =>
      rw [run]
      obtain ⟨-, hcreate⟩ | ⟨-, hcreate⟩ := m.create?_cases label now <;> rw [hcreate] <;> rfl
  | attach id snapshot p =>
      rw [run]
      cases snapshot.refer? p <;> rfl
  | remove id => rfl
  | clear => rfl
  | expire time => rfl

/-- A call keeps the markers in their order and puts a new one at the end. -/
theorem detached_run (c : Call) (m : Markers) :
    ((c.run m).entries.map Marker.detached).Sublist (m.entries.map Marker.detached ++ c.added m) := by
  cases c with
  | create label now =>
      rw [run, added]
      obtain ⟨-, hcreate⟩ | ⟨-, hcreate⟩ := m.create?_cases label now <;> rw [hcreate]
      · exact List.sublist_append_left _ _
      · show ((m.entries ++ [_]).map Marker.detached).Sublist _
        rw [List.map_append]
        exact .refl _
  | attach id snapshot p =>
      rw [run, added, List.append_nil]
      cases snapshot.refer? p with
      | none => exact .refl _
      | some target =>
          rw [Option.elim_some, detached_attach]
  | remove id =>
      rw [added, List.append_nil]
      exact List.filter_sublist.map _
  | clear => exact List.nil_sublist _
  | expire time =>
      rw [added, List.append_nil]
      exact List.filter_sublist.map _

/-- A new marker takes the next serial. -/
theorem added_ids {c : Call} (hc : c ≠ .clear) (m : Markers) :
    (c.added m).map Marker.id = (List.range' m.nextSerial (c.added m).length).map idOf ∧
      (c.run m).nextSerial = m.nextSerial + (c.added m).length := by
  cases c with
  | create label now =>
      rw [run, added]
      obtain ⟨-, hcreate⟩ | ⟨-, hcreate⟩ := m.create?_cases label now <;> rw [hcreate] <;> exact ⟨rfl, rfl⟩
  | attach id snapshot p =>
      rw [run, added]
      cases snapshot.refer? p <;> exact ⟨rfl, rfl⟩
  | remove id => exact ⟨rfl, rfl⟩
  | clear => exact absurd rfl hc
  | expire time => exact ⟨rfl, rfl⟩

theorem size_run (c : Call) (hm : m.size ≤ m.capacity) : (c.run m).size ≤ m.capacity := by
  have hlength := (c.detached_run m).length_le
  rw [List.length_append, List.length_map, List.length_map] at hlength
  have hfits : m.entries.length + (c.added m).length ≤ m.capacity := by
    cases c with
    | create label now =>
        rw [added]
        obtain ⟨-, hcreate⟩ | ⟨hroom, hcreate⟩ := m.create?_cases label now <;> rw [hcreate]
        · exact hm
        · exact hroom
    | attach id snapshot p => exact hm
    | remove id => exact hm
    | clear => exact hm
    | expire time => exact hm
  exact Nat.le_trans hlength hfits

/-- A marker stays as it is unless the call takes it out or attaches it. -/
theorem mem_run {c : Call} (hr : r ∈ m.entries) (hdrops : ¬ c.drops r)
    (hattach : ∀ snapshot p, c = .attach r.id snapshot p → snapshot.refer? p = none) : r ∈ (c.run m).entries := by
  cases c with
  | create label now =>
      rw [run]
      obtain ⟨-, hcreate⟩ | ⟨-, hcreate⟩ := m.create?_cases label now <;> rw [hcreate]
      · exact hr
      · exact List.mem_append_left _ hr
  | attach id snapshot p =>
      rw [run]
      cases hrefer : snapshot.refer? p with
      | none => exact hr
      | some target =>
          refine mem_attach hr (fun hid => ?_) target snapshot.file
          rw [hattach snapshot p (by rw [hid])] at hrefer
          cases hrefer
  | remove id => exact List.mem_filter.mpr ⟨hr, bne_iff_ne.mpr hdrops⟩
  | clear => exact absurd trivial hdrops
  | expire time => exact List.mem_filter.mpr ⟨hr, decide_eq_true (Int.not_lt.mp hdrops)⟩

/-- A marker leaves the store exactly if the call takes it out. -/
theorem exists_detached_run {c : Call} (hr : r ∈ m.entries) :
    (∃ r' ∈ (c.run m).entries, r'.detached = r.detached) ↔ ¬ c.drops r := by
  constructor
  · rintro ⟨r', hr', heq⟩ hdrops
    have hid : r'.id = r.id := (congrArg Marker.id heq :)
    have hcreated : r'.createdAt = r.createdAt := (congrArg Marker.createdAt heq :)
    cases c with
    | create label now => exact hdrops
    | attach id snapshot p => exact hdrops
    | remove id => exact bne_iff_ne.mp (List.mem_filter.mp hr').2 (hid.trans hdrops)
    | clear => cases hr'
    | expire time =>
        have hkept : time ≤ r'.createdAt := of_decide_eq_true (List.mem_filter.mp hr').2
        have hdrops : r.createdAt < time := hdrops
        omega
  · intro hdrops
    by_cases hattach : ∃ snapshot p, c = .attach r.id snapshot p
    · obtain ⟨snapshot, p, rfl⟩ := hattach
      rw [run]
      cases snapshot.refer? p with
      | none => exact ⟨r, hr, rfl⟩
      | some target =>
          have hmem := List.mem_map_of_mem (f := Marker.detached) hr
          rw [← detached_attach m r.id target snapshot.file] at hmem
          exact List.mem_map.mp hmem
    · exact ⟨r, mem_run hr hdrops fun snapshot p h => absurd ⟨snapshot, p, h⟩ hattach, rfl⟩

end Call

/-! ## Runs -/

/-- A store, and the markers created since the last clearing, in order and as they were created. -/
structure History where
  markers : Markers
  created : List Marker

/-- The run goes on with a call. -/
def History.after (h : History) (c : Call) : History where
  markers := c.run h.markers
  created := match c with
    | .clear => []
    | c => h.created ++ c.added h.markers

/-- A run from an empty store. -/
def history (capacity : Nat) (cs : List Call) : History :=
  cs.foldl History.after ⟨{ capacity := capacity }, []⟩

/-- The invariant of runs: serials are issued from one on without gaps, and what was created stands in its order. -/
structure History.Sound (h : History) (capacity : Nat) : Prop where
  capacity_eq : h.markers.capacity = capacity
  bounded : h.markers.size ≤ capacity
  listed : (h.markers.entries.map Marker.detached).Sublist h.created
  issued : ∃ n, h.markers.nextSerial = n + 1 ∧ h.created.map Marker.id = (List.range' 1 n).map idOf

namespace History.Sound

variable {h : History} {capacity : Nat}

theorem after (hh : h.Sound capacity) (c : Call) : (h.after c).Sound capacity := by
  have hcapacity : (c.run h.markers).capacity = capacity := (c.run_capacity _).trans hh.capacity_eq
  have hbounded : (c.run h.markers).size ≤ capacity := by
    rw [← hh.capacity_eq]
    exact c.size_run (hh.capacity_eq ▸ hh.bounded)
  by_cases hc : c = .clear
  · subst hc
    exact ⟨hcapacity, hbounded, .slnil, 0, rfl, rfl⟩
  · obtain ⟨n, hserial, hcreated⟩ := hh.issued
    obtain ⟨hids, hnext⟩ := Call.added_ids hc h.markers
    have hafter : (h.after c).created = h.created ++ c.added h.markers := by
      cases c with
      | clear => exact absurd rfl hc
      | _ => rfl
    refine ⟨hcapacity, hbounded, ?_, n + (c.added h.markers).length, ?_, ?_⟩
    · rw [hafter]
      exact (c.detached_run h.markers).trans (hh.listed.append_right _)
    · show (c.run h.markers).nextSerial = _
      rw [hnext, hserial]
      omega
    · rw [hafter, List.map_append, hcreated, hids, hserial, ← List.map_append, Nat.add_comm n 1,
        List.range'_append_1]

theorem nodup_created (hh : h.Sound capacity) : (h.created.map Marker.id).Nodup := by
  obtain ⟨n, -, hcreated⟩ := hh.issued
  rw [hcreated]
  exact List.Nodup.map (Text.append_ofNat_injective _) (List.nodup_range' _)

theorem nodup_ids (hh : h.Sound capacity) : (h.markers.entries.map Marker.id).Nodup := by
  have hsublist := hh.listed.map Marker.id
  rw [List.map_map] at hsublist
  exact hh.nodup_created.sublist hsublist

end History.Sound

theorem sound_history (capacity : Nat) (cs : List Call) : (history capacity cs).Sound capacity :=
  cs.foldlRecOn History.after (motive := (History.Sound · capacity)) ⟨rfl, Nat.zero_le _, .slnil, 0, rfl, rfl⟩
    fun _ hh c _ => hh.after c

/-- What holds of a store at every point of a run. -/
structure History.KeepsMarkers (h : History) (capacity : Nat) : Prop where
  distinct : (h.markers.entries.map Marker.id).Nodup
  bounded : h.markers.size ≤ h.markers.capacity ∧ h.markers.capacity = capacity
  /-- All markers are found, and those that are found stand in the order of their creation. -/
  inOrder : h.markers.find none none = h.markers.entries ∧
    ∀ id file, ((h.markers.find id file).map Marker.detached).Sublist h.created
  fresh : (h.created.map Marker.id).Nodup
  /-- Creation fails for want of room only. -/
  full : ∀ (s : Session) (label : Option Text) (now : Int) (e : Failure),
    (Session.createMarker label now { s with markers := h.markers }).result = .error e ↔
      h.markers.hasRoom = false ∧ e = .full capacity
  /-- A marker stays until a call takes it out, and changes only when it is attached. -/
  stays : ∀ c, ∀ r ∈ h.markers.entries,
    ((∃ r' ∈ (h.after c).markers.entries, r'.detached = r.detached) ↔ ¬ c.drops r) ∧
    ((∀ snapshot p, c ≠ .attach r.id snapshot p) → ¬ c.drops r → r ∈ (h.after c).markers.entries)

theorem createMarker_eq_error (s : Session) (label : Option Text) (now : Int) (e : Failure) :
    (Session.createMarker label now s).result = .error e ↔
      s.markers.hasRoom = false ∧ e = .full s.markers.capacity := by
  unfold Session.createMarker
  obtain ⟨hroom, hcreate⟩ | ⟨hroom, hcreate⟩ := s.markers.create?_cases label now
  · rw [hcreate, hroom]
    exact ⟨fun h => ⟨rfl, (Except.error.inj h).symm⟩, fun h => congrArg Except.error h.2.symm⟩
  · rw [hcreate, show s.markers.hasRoom = true from decide_eq_true hroom]
    exact ⟨nofun, nofun⟩

theorem find_none_none (m : Markers) : m.find none none = m.entries :=
  List.filter_eq_self.mpr fun _ _ => rfl

/-- **In every run of a marker store of any capacity the ids are distinct, the store holds no more than its capacity
and lists its markers in the order of creation, no id is returned twice between two clearings, creation fails exactly
when there is no room, and a marker stays until it is removed or expires or all are cleared.** -/
theorem history_keepsMarkers (capacity : Nat) (cs : List Call) : (history capacity cs).KeepsMarkers capacity := by
  have hsound := sound_history capacity cs
  refine ⟨hsound.nodup_ids, ⟨?_, hsound.capacity_eq⟩, ⟨find_none_none _, fun id file => ?_⟩, hsound.nodup_created,
    fun s label now e => ?_, fun c r hr => ⟨Call.exists_detached_run hr, fun hattach hdrops => ?_⟩⟩
  · rw [hsound.capacity_eq]
    exact hsound.bounded
  · exact (List.filter_sublist.map _).trans hsound.listed
  · rw [createMarker_eq_error, hsound.capacity_eq]
  · exact Call.mem_run hr hdrops fun snapshot p hc => absurd hc (hattach snapshot p)

end Markers

end TreeQuery
