import Mathlib.Data.List.Nodup
import TreeQuery.Proofs.Text.Numeral
import TreeQuery.Store.Statement

/-!
# Calls of a registry

The five operations on a registry as one type of calls. Every call first brings the registry to a state in which the
capacity is not yet looked at, and then evicts; on a registry within its capacity this is also true of the calls that
do not evict. So what a call does to the order is said about `Call.reached`, and what it drops about `evict`.

* `find?_key_eq_some`: entries with distinct keys are found by their keys;
* `pushAll_eq`, `pushAll_records`: a batch in front of what was there, and what it registers under which serials;
* `Bounded`, `evict_entries`, `length_dropped`: what eviction keeps and how much it drops;
* `extended`, `register_eq`, `registerAll_eq`: what registering leaves, as what is new in front of what stays;
* `registerAll_records`, `mem_registerAll`: what a batch registers, and where it is then;
* `lookup_cases`, `lookup_of_mem`, `lookup_perm`: a lookup moves what it finds to the front;
* `Call.run`, `Call.added`, `Call.used`: the registry after a call, what it registers and the ids that it uses;
* `Call.run_eq`, `Call.reached_perm`, `Call.added_isPrefix`, `Call.length_added_le`: the two halves of a call.
-/

namespace TreeQuery

set_option autoImplicit false

/-- Of entries with distinct keys, the one with a given key is found. -/
theorem find?_key_eq_some {α : Type} {key : α → Text} {l : List α} (h : (l.map key).Nodup) {k : Text} {a : α} :
    l.find? (key · == k) = some a ↔ a ∈ l ∧ key a = k := by
  constructor
  · intro hfind
    have hkey := List.find?_some hfind
    exact ⟨List.mem_of_find?_eq_some hfind, beq_iff_eq.mp hkey⟩
  · rintro ⟨ha, rfl⟩
    cases hfind : l.find? (key · == key a) with
    | none =>
        have hne := List.find?_eq_none.mp hfind a ha
        exact absurd (beq_self_eq_true (key a)) hne
    | some b =>
        have hkey := List.find?_some hfind
        rw [List.inj_on_of_nodup_map h (List.mem_of_find?_eq_some hfind) ha (beq_iff_eq.mp hkey)]

namespace Statements

variable {s : Statements}

/-! ## Batches -/

theorem pushAll_eq (file session : Text) (targets : List Reference) (s : Statements) :
    (pushAll file session targets s).2.entries = (pushAll file session targets s).1.reverse ++ s.entries ∧
      (pushAll file session targets s).2.nextSerial = s.nextSerial + targets.length ∧
      (pushAll file session targets s).2.capacity = s.capacity ∧
      (pushAll file session targets s).1.map Statement.id = (List.range' s.nextSerial targets.length).map idOf := by
  induction targets generalizing s with
  | nil => exact ⟨rfl, rfl, rfl, rfl⟩
  | cons target targets ih =>
      obtain ⟨hentries, hserial, hcapacity, hids⟩ := ih (s.push target file session).2
      rw [pushAll]
      refine ⟨?_, ?_, hcapacity, ?_⟩
      · rw [List.reverse_cons, List.append_assoc]
        exact hentries
      · rw [List.length_cons, Nat.add_comm targets.length, ← Nat.add_assoc]
        exact hserial
      · rw [List.length_cons, List.range'_succ, List.map_cons, List.map_cons]
        exact congrArg _ hids

theorem length_pushAll (file session : Text) (targets : List Reference) (s : Statements) :
    (pushAll file session targets s).1.length = targets.length := by
  have hids := congrArg List.length (pushAll_eq file session targets s).2.2.2
  simpa using hids

/-- What a batch registers depends only on the number of the next statement. -/
theorem pushAll_records (file session : Text) (targets : List Reference) (s : Statements) :
    (pushAll file session targets s).1 =
      targets.mapIdx fun i target => ⟨idOf (s.nextSerial + i), target, file, session⟩ := by
  induction targets generalizing s with
  | nil => rfl
  | cons target targets ih =>
      have hserial : ∀ i, (s.push target file session).2.nextSerial + i = s.nextSerial + (i + 1) := by
        intro i
        show s.nextSerial + 1 + i = _
        omega
      rw [pushAll, List.mapIdx_cons]
      simp only [ih, hserial]
      rfl

theorem pushAll_congr (file session : Text) (targets : List Reference) {t : Statements}
    (h : s.nextSerial = t.nextSerial) : (pushAll file session targets s).1 = (pushAll file session targets t).1 := by
  rw [pushAll_records, pushAll_records, h]

/-! ## Eviction -/

/-- How many statements may stay. -/
def room (s : Statements) : Nat := if s.capacity = 0 then s.size else s.capacity

@[simp] theorem evict_capacity : s.evict.capacity = s.capacity := by
  unfold evict
  split <;> rfl

@[simp] theorem evict_nextSerial : s.evict.nextSerial = s.nextSerial := by
  unfold evict
  split <;> rfl

theorem evict_entries : s.evict.entries = s.entries.take s.room := by
  unfold evict room
  by_cases h : s.capacity = 0
  · rw [if_pos h, if_pos h, size, List.take_length]
  · rw [if_neg h, if_neg h]

/-- The registry holds no more than it may. -/
def Bounded (s : Statements) : Prop := s.capacity ≠ 0 → s.size ≤ s.capacity

theorem bounded_evict (s : Statements) : s.evict.Bounded := by
  intro h
  rw [evict_capacity] at h ⊢
  rw [size, evict_entries, room, if_neg h]
  exact List.length_take_le _ _

theorem Bounded.evict_eq (h : s.Bounded) : s.evict = s := by
  unfold evict
  by_cases hc : s.capacity = 0
  · rw [if_pos hc]
  · rw [if_neg hc, List.take_of_length_le (h hc)]

theorem mem_drop_of_not_mem_evict {e : Statement} (he : e ∈ s.entries) (h : e ∉ s.evict.entries) :
    e ∈ s.entries.drop s.room := by
  rw [evict_entries] at h
  rw [← List.take_append_drop s.room s.entries, List.mem_append] at he
  exact he.resolve_left h

/-- Of distinct statements, as many are dropped as there are too many. -/
theorem length_dropped (h : s.entries.Nodup) :
    (s.entries.filter (· ∉ s.evict.entries)).length = s.size - s.room := by
  rw [evict_entries]
  generalize s.room = n
  have hsplit := List.take_append_drop n s.entries
  have hdisjoint : ∀ e ∈ s.entries.drop n, e ∉ s.entries.take n := by
    rw [← hsplit, List.nodup_append] at h
    exact fun e he he' => h.2.2 e he' e he rfl
  calc (s.entries.filter (· ∉ s.entries.take n)).length
      = ((s.entries.take n ++ s.entries.drop n).filter (· ∉ s.entries.take n)).length := by rw [hsplit]
    _ = (s.entries.drop n).length := by
        rw [List.filter_append, List.filter_eq_nil_iff.mpr, List.filter_eq_self.mpr, List.nil_append]
        · exact fun e he => decide_eq_true (hdisjoint e he)
        · exact fun e he => by simp [he]
    _ = s.size - n := List.length_drop

/-! ## Registration -/

/-- What stays of the statements when `n` new ones come in front of them. -/
def kept (s : Statements) (n : Nat) : List Statement :=
  if s.capacity = 0 then s.entries else s.entries.take (s.capacity - n)

/-- The registry with new statements in front, and its capacity grown as far as they need. -/
def extended (s : Statements) (es : List Statement) : Statements :=
  ⟨es ++ s.kept es.length, s.nextSerial + es.length, s.grown es.length⟩

theorem evict_append (s : Statements) (es : List Statement) :
    evict ⟨es ++ s.entries, s.nextSerial + es.length, s.grown es.length⟩ = s.extended es := by
  unfold evict extended kept grown
  by_cases h : s.capacity = 0
  · simp only [if_pos h, ↓reduceIte]
  · have hmax : max s.capacity es.length ≠ 0 := by omega
    have hroom : max s.capacity es.length - es.length = s.capacity - es.length := by omega
    simp only [if_neg h, if_neg hmax, List.take_append, hroom, List.take_of_length_le (Nat.le_max_right _ _)]

theorem grown_one (s : Statements) : s.grown 1 = s.capacity := by
  unfold grown
  split <;> omega

theorem register_eq (s : Statements) (target : Reference) (file session : Text) :
    (s.register target file session).2 = s.extended [(s.push target file session).1] := by
  rw [← evict_append, List.length_singleton, grown_one]
  rfl

theorem registerAll_eq (s : Statements) (targets : List Reference) (file session : Text) :
    (s.registerAll targets file session).2.1 = s.extended (s.registerAll targets file session).1.reverse := by
  let u : Statements := { s with capacity := s.grown targets.length }
  obtain ⟨hentries, hserial, hcapacity, -⟩ := pushAll_eq file session targets u
  have hlength : (s.registerAll targets file session).1.reverse.length = targets.length := by
    rw [List.length_reverse]
    exact length_pushAll file session targets u
  have hreached : (pushAll file session targets u).2 =
      ⟨(pushAll file session targets u).1.reverse ++ u.entries, u.nextSerial + targets.length, u.capacity⟩ := by
    rw [← hentries, ← hserial, ← hcapacity]
  rw [← evict_append, hlength]
  exact congrArg evict hreached

theorem registerAll_records (s : Statements) (targets : List Reference) (file session : Text) :
    (s.registerAll targets file session).1 =
      targets.mapIdx fun i target => ⟨idOf (s.nextSerial + i), target, file, session⟩ :=
  pushAll_records file session targets { s with capacity := s.grown targets.length }

theorem map_target_registerAll (s : Statements) (targets : List Reference) (file session : Text) :
    (s.registerAll targets file session).1.map Statement.target = targets := by
  rw [registerAll_records]
  apply List.ext_getElem?
  intro i
  rw [List.getElem?_map, List.getElem?_mapIdx]
  cases targets[i]? <;> rfl

theorem mem_registerAll {targets : List Reference} {file session : Text} {e : Statement}
    (he : e ∈ (s.registerAll targets file session).1) :
    e.file = file ∧ e.session = session ∧ e ∈ (s.registerAll targets file session).2.1.entries := by
  have hentries : e ∈ (s.registerAll targets file session).2.1.entries := by
    rw [registerAll_eq]
    exact List.mem_append_left _ (List.mem_reverse.mpr he)
  rw [registerAll_records] at he
  obtain ⟨i, hi, rfl⟩ := List.mem_mapIdx.mp he
  exact ⟨rfl, rfl, hentries⟩

/-! ## Lookup -/

theorem lookup_cases (s : Statements) (id : Text) :
    (s.lookup id = (none, s)) ∨ ∃ e ∈ s.entries, e.id = id ∧
      s.lookup id = (some e, { s with entries := e :: s.entries.filter (·.id != id) }) := by
  unfold lookup
  cases hfind : s.entries.find? (·.id == id) with
  | none => exact .inl rfl
  | some e =>
      have hid := List.find?_some hfind
      exact .inr ⟨e, List.mem_of_find?_eq_some hfind, beq_iff_eq.mp hid, rfl⟩

theorem lookup_of_mem (hids : (s.entries.map Statement.id).Nodup) {e : Statement} (he : e ∈ s.entries) :
    s.lookup e.id = (some e, { s with entries := e :: s.entries.filter (·.id != e.id) }) := by
  rw [lookup, (find?_key_eq_some hids).mpr ⟨he, rfl⟩]

/-- A lookup only moves what it finds to the front. -/
theorem lookup_perm (h : (s.entries.map Statement.id).Nodup) (id : Text) :
    (s.lookup id).2.entries.Perm s.entries := by
  obtain hlookup | ⟨e, he, rfl, hlookup⟩ := lookup_cases s id
  · rw [hlookup]
  · have hfilter : s.entries.filter (·.id != e.id) = s.entries.erase e := by
      rw [(List.Nodup.of_map _ h).erase_eq_filter]
      refine List.filter_congr fun d hd => ?_
      have hiff : d.id = e.id ↔ d = e := ⟨List.inj_on_of_nodup_map h hd he, congrArg _⟩
      simp only [bne, Bool.beq_eq_decide_eq, hiff]
    rw [hlookup, hfilter]
    exact (List.perm_cons_erase he).symm

/-! ## Calls -/

inductive Call where
  | register (target : Reference) (file session : Text)
  | registerAll (targets : List Reference) (file session : Text)
  | lookup (id : Text)
  | setCapacity (capacity : Nat)
  | clear
deriving DecidableEq

namespace Call

/-- The registry after a call. -/
def run : Call → Statements → Statements
  | register target file session, s => (s.register target file session).2
  | registerAll targets file session, s => (s.registerAll targets file session).2.1
  | lookup id, s => (s.lookup id).2
  | setCapacity capacity, s => s.setCapacity capacity
  | clear, s => s.clear.2

/-- The statements that a call registers, in the order in which it returns their ids. -/
def added : Call → Statements → List Statement
  | register target file session, s => [⟨(s.register target file session).1, target, file, session⟩]
  | registerAll targets file session, s => (s.registerAll targets file session).1
  | lookup _, _ | setCapacity _, _ | clear, _ => []

/-- The ids that a call uses, one after the other: those that it registers, or the one that it finds. -/
def used : Call → Statements → List Text
  | lookup id, s => ((s.lookup id).1.map Statement.id).toList
  | c, s => (c.added s).map Statement.id

/-- The registry before the call evicts. -/
def reached : Call → Statements → Statements
  | register target file session, s => (s.push target file session).2
  | registerAll targets file session, s =>
    (pushAll file session targets { s with capacity := s.grown targets.length }).2
  | setCapacity capacity, s => { s with capacity := capacity }
  | c, s => c.run s

theorem run_eq (c : Call) (hids : (s.entries.map Statement.id).Nodup) (hs : s.Bounded) :
    c.run s = (c.reached s).evict := by
  cases c with
  | register target file session => rfl
  | registerAll targets file session => rfl
  | setCapacity capacity => rfl
  | clear =>
      have hbounded : (reached .clear s).Bounded := fun _ => Nat.zero_le _
      exact hbounded.evict_eq.symm
  | lookup id =>
      have hcapacity : (s.lookup id).2.capacity = s.capacity := by
        obtain hlookup | ⟨e, -, -, hlookup⟩ := lookup_cases s id <;> rw [hlookup]
      have hbounded : (reached (.lookup id) s).Bounded := by
        intro h
        show (s.lookup id).2.entries.length ≤ (s.lookup id).2.capacity
        rw [(lookup_perm hids id).length_eq, hcapacity]
        exact hs (hcapacity ▸ h)
      exact hbounded.evict_eq.symm

/-- Until it evicts, a call that does not clear loses nothing. -/
theorem reached_perm (c : Call) (hc : c ≠ .clear) (hids : (s.entries.map Statement.id).Nodup) :
    (c.reached s).entries.Perm (c.added s ++ s.entries) := by
  cases c with
  | register target file session => exact .refl _
  | registerAll targets file session =>
      show (pushAll file session targets _).2.entries.Perm _
      rw [(pushAll_eq file session targets _).1]
      exact (List.reverse_perm _).append_right _
  | setCapacity capacity => exact .refl _
  | clear => exact absurd rfl hc
  | lookup id => exact lookup_perm hids id

/-- What is registered comes to the front, the last one first. -/
theorem added_isPrefix (c : Call) (s : Statements) : (c.added s).reverse <+: (c.reached s).entries := by
  cases c with
  | register target file session => exact ⟨s.entries, rfl⟩
  | registerAll targets file session => exact ⟨s.entries, (pushAll_eq file session targets _).1.symm⟩
  | setCapacity capacity => exact List.nil_prefix
  | clear => exact List.nil_prefix
  | lookup id => exact List.nil_prefix

theorem added_ids (c : Call) (s : Statements) :
    (c.added s).map Statement.id = (List.range' s.nextSerial (c.added s).length).map idOf ∧
      (c.reached s).nextSerial = s.nextSerial + (c.added s).length := by
  cases c with
  | register target file session => exact ⟨rfl, rfl⟩
  | registerAll targets file session =>
      obtain ⟨-, hserial, -, hids⟩ := pushAll_eq file session targets { s with capacity := s.grown targets.length }
      have hlength : (added (.registerAll targets file session) s).length = targets.length :=
        length_pushAll file session targets _
      rw [hlength]
      exact ⟨hids, hserial⟩
  | setCapacity capacity => exact ⟨rfl, rfl⟩
  | clear => exact ⟨rfl, rfl⟩
  | lookup id =>
      refine ⟨rfl, ?_⟩
      show (s.lookup id).2.nextSerial = s.nextSerial
      obtain hlookup | ⟨e, -, -, hlookup⟩ := lookup_cases s id <;> rw [hlookup]

/-- There is room for all that a call registers. -/
theorem length_added_le (c : Call) (s : Statements) (h : (c.reached s).capacity ≠ 0) :
    (c.added s).length ≤ (c.reached s).capacity := by
  cases c with
  | register target file session => exact Nat.pos_of_ne_zero h
  | registerAll targets file session =>
      have hcapacity : (reached (.registerAll targets file session) s).capacity = s.grown targets.length :=
        (pushAll_eq file session targets _).2.2.1
      have hlength : (added (.registerAll targets file session) s).length = targets.length :=
        length_pushAll file session targets _
      rw [hcapacity] at h ⊢
      rw [hlength]
      unfold grown at h ⊢
      split
      · rename_i hzero
        exact absurd (if_pos hzero) h
      · exact Nat.le_max_right _ _
  | setCapacity capacity => exact Nat.zero_le _
  | clear => exact Nat.zero_le _
  | lookup id => exact Nat.zero_le _

end Call

end Statements

end TreeQuery
