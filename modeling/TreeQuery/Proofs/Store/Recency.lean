import TreeQuery.Proofs.Store.Call

/-!
# Least recent first

A run of a registry with the times of its uses. Registrations and successful lookups are numbered in the order in
which they happen, and the last number of each statement orders the registry: the statements stand in the order of
their last uses, and those that leave were used before all that stay.

* `lastUse`: when an id was last used;
* `Recent`: the order of a registry against a list of uses, kept by `push`, `pushAll`, `lookup` and `evict`;
* `History`, `history`: a run, with the ids that it returned and those that it used;
* `sound_history`: the invariant of runs;
* `history_leastRecent`: ids, order and eviction in every run.
-/

namespace TreeQuery.Statements

set_option autoImplicit false

variable {s : Statements} {uses : List Text}

/-! ## Times of use -/

/-- When an id was last used, counted from one; zero if never. -/
def lastUse (uses : List Text) (id : Text) : Nat := uses.length - uses.reverse.idxOf id

theorem lastUse_le (uses : List Text) (id : Text) : lastUse uses id ≤ uses.length := Nat.sub_le _ _

theorem lastUse_concat_self (uses : List Text) (id : Text) : lastUse (uses ++ [id]) id = uses.length + 1 := by
  unfold lastUse
  rw [List.reverse_concat, List.idxOf_cons_self, List.length_append]
  rfl

theorem lastUse_concat_of_ne {id other : Text} (h : id ≠ other) :
    lastUse (uses ++ [id]) other = lastUse uses other := by
  unfold lastUse
  rw [List.reverse_concat, List.idxOf_cons_ne _ h, List.length_append, List.length_singleton]
  omega

/-! ## Registries in the order of use -/

/-- The ids have been issued, and the statements stand by last use, the most recent first. -/
structure Recent (s : Statements) (uses : List Text) : Prop where
  issued : ∀ e ∈ s.entries, ∃ k < s.nextSerial, e.id = idOf k
  sorted : s.entries.Pairwise fun a b => lastUse uses b.id < lastUse uses a.id

namespace Recent

theorem nodup_ids (h : Recent s uses) : (s.entries.map Statement.id).Nodup := by
  rw [List.Nodup, List.pairwise_map]
  refine h.sorted.imp fun {a b} hab hid => ?_
  rw [hid] at hab
  exact Nat.lt_irrefl _ hab

/-- Using an id puts its statement in front of statements with other ids. -/
theorem sorted_cons {es : List Statement} (h : es.Pairwise fun a b => lastUse uses b.id < lastUse uses a.id)
    {e : Statement} (he : ∀ d ∈ es, e.id ≠ d.id) :
    (e :: es).Pairwise fun a b => lastUse (uses ++ [e.id]) b.id < lastUse (uses ++ [e.id]) a.id := by
  rw [List.pairwise_cons]
  constructor
  · intro d hd
    rw [lastUse_concat_of_ne (he d hd), lastUse_concat_self]
    have := lastUse_le uses d.id
    omega
  · refine h.imp_of_mem fun {a b} ha hb hab => ?_
    rwa [lastUse_concat_of_ne (he a ha), lastUse_concat_of_ne (he b hb)]

theorem push (h : Recent s uses) (target : Reference) (file session : Text) :
    Recent (s.push target file session).2 (uses ++ [(s.push target file session).1.id]) := by
  constructor
  · intro e he
    show ∃ k < s.nextSerial + 1, e.id = idOf k
    rcases List.mem_cons.mp he with rfl | he
    · exact ⟨s.nextSerial, by omega, rfl⟩
    · obtain ⟨k, hk, hid⟩ := h.issued e he
      exact ⟨k, by omega, hid⟩
  · refine sorted_cons h.sorted fun d hd hid => ?_
    obtain ⟨k, hk, hdk⟩ := h.issued d hd
    have hserial : s.nextSerial = k := Text.append_ofNat_injective _ (hid.trans hdk)
    omega

theorem pushAll (h : Recent s uses) (file session : Text) (targets : List Reference) :
    Recent (pushAll file session targets s).2
      (uses ++ (Statements.pushAll file session targets s).1.map Statement.id) := by
  induction targets generalizing s uses with
  | nil => simpa [Statements.pushAll] using h
  | cons target targets ih =>
      have hmore := ih (h.push target file session)
      rw [List.append_assoc, List.singleton_append] at hmore
      exact hmore

theorem setCapacity (h : Recent s uses) (capacity : Nat) : Recent { s with capacity := capacity } uses :=
  ⟨h.issued, h.sorted⟩

theorem lookup (h : Recent s uses) (id : Text) :
    Recent (s.lookup id).2 (uses ++ ((s.lookup id).1.map Statement.id).toList) := by
  obtain hlookup | ⟨e, he, rfl, hlookup⟩ := lookup_cases s id
  · rw [hlookup]
    simpa using h
  · rw [hlookup]
    constructor
    · intro d hd
      rcases List.mem_cons.mp hd with rfl | hd
      · exact h.issued d he
      · exact h.issued d (List.mem_of_mem_filter hd)
    · refine sorted_cons (h.sorted.sublist List.filter_sublist) fun d hd hid => ?_
      obtain ⟨-, hne⟩ := List.mem_filter.mp hd
      simp [hid] at hne

theorem evict (h : Recent s uses) : Recent s.evict uses := by
  constructor
  · intro e he
    rw [evict_entries] at he
    rw [evict_nextSerial]
    exact h.issued e (List.mem_of_mem_take he)
  · rw [evict_entries]
    exact h.sorted.sublist (List.take_sublist _ _)

theorem reached (h : Recent s uses) (c : Call) : Recent (c.reached s) (uses ++ c.used s) := by
  cases c with
  | register target file session => exact h.push target file session
  | registerAll targets file session => exact (h.setCapacity _).pushAll file session targets
  | setCapacity capacity =>
      show Recent _ (uses ++ [])
      rw [List.append_nil]
      exact h.setCapacity capacity
  | clear => exact ⟨nofun, .nil⟩
  | lookup id => exact h.lookup id

/-- What is dropped was last used before all that stays. -/
theorem lastUse_lt_of_dropped (h : Recent s uses) {d e : Statement} (hd : d ∈ s.entries)
    (hdropped : d ∉ s.evict.entries) (he : e ∈ s.evict.entries) : lastUse uses d.id < lastUse uses e.id := by
  have hsorted := h.sorted
  rw [← List.take_append_drop s.room s.entries, List.pairwise_append] at hsorted
  exact hsorted.2.2 e (evict_entries ▸ he) d (mem_drop_of_not_mem_evict hd hdropped)

end Recent

/-! ## Runs -/

/-- A registry, the ids that were returned so far and the ids that were used so far, both in order. -/
structure History where
  statements : Statements
  issued : List Text
  uses : List Text

/-- The run goes on with a call. -/
def History.after (h : History) (c : Call) : History where
  statements := c.run h.statements
  issued := h.issued ++ (c.added h.statements).map Statement.id
  uses := h.uses ++ c.used h.statements

/-- A run from an empty registry. -/
def history (capacity : Nat) (cs : List Call) : History :=
  cs.foldl History.after ⟨{ capacity := capacity }, [], []⟩

/-- The invariant of runs: serials are issued from one on without gaps. -/
structure History.Sound (h : History) : Prop where
  recent : Recent h.statements h.uses
  bounded : h.statements.Bounded
  issued : ∃ n, h.statements.nextSerial = n + 1 ∧ h.issued = (List.range' 1 n).map idOf

theorem History.Sound.after {h : History} (hh : h.Sound) (c : Call) : (h.after c).Sound := by
  have hrun : c.run h.statements = (c.reached h.statements).evict := c.run_eq hh.recent.nodup_ids hh.bounded
  obtain ⟨n, hserial, hissued⟩ := hh.issued
  obtain ⟨hids, hnext⟩ := c.added_ids h.statements
  refine ⟨?_, ?_, n + (c.added h.statements).length, ?_, ?_⟩
  · show Recent (c.run h.statements) _
    rw [hrun]
    exact (hh.recent.reached c).evict
  · show (c.run h.statements).Bounded
    rw [hrun]
    exact bounded_evict _
  · show (c.run h.statements).nextSerial = _
    rw [hrun, evict_nextSerial, hnext, hserial]
    omega
  · show h.issued ++ (c.added h.statements).map Statement.id = _
    rw [hids, hissued, hserial, ← List.map_append, Nat.add_comm n 1, List.range'_append_1]

theorem sound_history (capacity : Nat) (cs : List Call) : (history capacity cs).Sound :=
  cs.foldlRecOn History.after (motive := History.Sound) ⟨⟨nofun, .nil⟩, fun _ => Nat.zero_le _, 0, rfl, rfl⟩
    fun _ hh c _ => hh.after c

theorem History.Sound.nodup_issued {h : History} (hh : h.Sound) : h.issued.Nodup := by
  obtain ⟨n, -, hissued⟩ := hh.issued
  rw [hissued]
  exact List.Nodup.map (Text.append_ofNat_injective _) (List.nodup_range' _)

theorem History.Sound.nextSerial_eq {h : History} (hh : h.Sound) : h.statements.nextSerial = h.issued.length + 1 := by
  obtain ⟨n, hserial, hissued⟩ := hh.issued
  rw [hserial, hissued, List.length_map, List.length_range']

/-- What a call registers has an id that was not returned before. -/
theorem History.Sound.added_fresh {h : History} (hh : h.Sound) {c : Call} {e : Statement}
    (he : e ∈ c.added h.statements) : e.id ∉ h.issued := by
  have hnodup : (h.issued ++ (c.added h.statements).map Statement.id).Nodup := (hh.after c).nodup_issued
  intro hissued
  exact (List.nodup_append.mp hnodup).2.2 e.id hissued e.id (List.mem_map_of_mem he) rfl

/-! ## Eviction in runs -/

/-- What a call drops, of what was there and of what it registers. -/
def Call.dropped (c : Call) (s : Statements) : List Statement :=
  (c.added s ++ s.entries).filter (· ∉ (c.run s).entries)

/-- The registry of a run holds distinct ids, no more than it may and in the order of last use. -/
structure History.Ordered (h : History) : Prop where
  distinct : (h.statements.entries.map Statement.id).Nodup
  bounded : h.statements.capacity ≠ 0 → h.statements.size ≤ h.statements.capacity
  sorted : h.statements.entries.Pairwise fun a b => lastUse h.uses b.id < lastUse h.uses a.id

/-- A call drops what was used least recently, as much as it has to and nothing that it registers. -/
structure History.DropsOldest (h : History) (c : Call) : Prop where
  older : ∀ d ∈ c.dropped h.statements, ∀ e ∈ (h.after c).statements.entries,
    lastUse (h.after c).uses d.id < lastUse (h.after c).uses e.id
  forced : (c.dropped h.statements).length = if (h.after c).statements.capacity = 0 then 0
    else (c.added h.statements).length + h.statements.size - (h.after c).statements.capacity
  present : ∀ e ∈ c.added h.statements, e ∈ (h.after c).statements.entries

theorem History.Sound.ordered {h : History} (hh : h.Sound) : h.Ordered :=
  ⟨hh.recent.nodup_ids, hh.bounded, hh.recent.sorted⟩

theorem History.Sound.dropsOldest {h : History} (hh : h.Sound) {c : Call} (hc : c ≠ .clear) :
    h.DropsOldest c := by
  have hrun : c.run h.statements = (c.reached h.statements).evict := c.run_eq hh.recent.nodup_ids hh.bounded
  have hperm := c.reached_perm hc hh.recent.nodup_ids
  have hrecent := hh.recent.reached c
  refine ⟨fun d hd e he => ?_, ?_, fun e he => ?_⟩
  · obtain ⟨hd, hdropped⟩ := List.mem_filter.mp hd
    rw [decide_eq_true_iff, hrun] at hdropped
    have he : e ∈ (c.reached h.statements).evict.entries := hrun ▸ he
    exact hrecent.lastUse_lt_of_dropped (hperm.mem_iff.mpr hd) hdropped he
  · show _ = if (c.run h.statements).capacity = 0 then 0 else _ - (c.run h.statements).capacity
    have hsize : (c.added h.statements).length + h.statements.size = (c.reached h.statements).size := by
      rw [size, size, hperm.length_eq, List.length_append]
    have hdropped := length_dropped (List.Nodup.of_map _ hrecent.nodup_ids)
    rw [Call.dropped, hrun, evict_capacity, hsize, ← (hperm.filter _).length_eq, hdropped, room]
    split
    · exact Nat.sub_self _
    · rfl
  · show e ∈ (c.run h.statements).entries
    have hroom : (c.added h.statements).reverse.length ≤ (c.reached h.statements).room := by
      unfold room
      split
      · exact (c.added_isPrefix h.statements).length_le
      · rename_i hcapacity
        rw [List.length_reverse]
        exact c.length_added_le h.statements hcapacity
    have hprefix := List.prefix_take_iff.mpr ⟨c.added_isPrefix h.statements, hroom⟩
    rw [hrun, evict_entries]
    exact hprefix.subset (List.mem_reverse.mpr he)

/-- **In every run of a registry of any capacity no id is returned twice, the registry holds distinct ids within its
capacity in strictly decreasing order of last use, and a call that does not clear it drops only what was last used
before all that stays, no more than the capacity forces, and nothing that it registers.** -/
theorem history_leastRecent (capacity : Nat) (cs : List Call) :
    (history capacity cs).issued.Nodup ∧ (history capacity cs).Ordered ∧
      ∀ c, c ≠ .clear → (history capacity cs).DropsOldest c := by
  have hsound := sound_history capacity cs
  exact ⟨hsound.nodup_issued, hsound.ordered, fun _ hc => hsound.dropsOldest hc⟩

/-- A full registry of two drops the statement that was not looked up. -/
theorem dropsOldest_unused :
    (history 2 [.registerAll [⟨1, [0], "if", none⟩, ⟨1, [1], "if", none⟩] "f" "s", .lookup "stmt-1"]).DropsOldest
        (.register ⟨1, [2], "if", none⟩ "f" "s") ∧
      Call.dropped (.register ⟨1, [2], "if", none⟩ "f" "s") (history 2 [.registerAll [⟨1, [0], "if", none⟩,
        ⟨1, [1], "if", none⟩] "f" "s", .lookup "stmt-1"]).statements = [⟨"stmt-2", ⟨1, [1], "if", none⟩, "f", "s"⟩] :=
  ⟨(history_leastRecent 2 _).2.2 _ (by decide), by decide⟩

end TreeQuery.Statements
