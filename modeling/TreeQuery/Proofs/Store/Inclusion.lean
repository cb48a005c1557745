import TreeQuery.Proofs.Store.Recency

/-!
# Larger registries keep more

Two registries of different capacity under the same calls. A lookup may find a statement in the larger one only, so
that the two do not stay in the same order; still the smaller one is at all times the larger one with some statements
left out. What makes this an invariant is that the smaller registry leaves nothing out until it is full, and from then
on stays full until it is cleared: then eviction takes at least as many statements from it as from the larger one.

* `take_sublist_take`: what is left of a list and of a part of it;
* `Within`: the relation of the two registries;
* `Within.extended`, `Within.lookup`, `Within.run`: what a call does to it;
* `within_history`: it holds in all runs that leave the capacity alone;
* `history_sublist`: the larger registry keeps and finds what the smaller one does.
-/

namespace TreeQuery.Statements

set_option autoImplicit false

variable {s t : Statements}

/-- Of a list at least as much is taken, counted from its end, as of a part of it. -/
theorem take_sublist_take {α : Type} {l₁ l₂ : List α} (h : l₁.Sublist l₂) {m n : Nat}
    (hmn : l₂.length + m ≤ l₁.length + n) : (l₁.take m).Sublist (l₂.take n) := by
  induction h generalizing m n with
  | slnil => simp
  | cons a h ih =>
      rw [List.length_cons] at hmn
      have hle := h.length_le
      obtain ⟨n, rfl⟩ : ∃ k, n = k + 1 := ⟨n - 1, by omega⟩
      rw [List.take_succ_cons]
      exact (ih (by omega)).cons a
  | cons_cons a h ih =>
      rw [List.length_cons, List.length_cons] at hmn
      have hle := h.length_le
      cases m with
      | zero => exact List.nil_sublist _
      | succ m =>
          obtain ⟨n, rfl⟩ : ∃ k, n = k + 1 := ⟨n - 1, by omega⟩
          rw [List.take_succ_cons, List.take_succ_cons]
          exact (ih (by omega)).cons_cons a

/-! ## The relation of two registries -/

/-- `s` holds what `t` holds with some statements left out, and leaves nothing out unless it is full. -/
structure Within (s t : Statements) : Prop where
  sublist : s.entries.Sublist t.entries
  serial : s.nextSerial = t.nextSerial
  capacity : t.capacity = 0 ∨ 0 < s.capacity ∧ s.capacity ≤ t.capacity
  filled : s.entries = t.entries ∨ 0 < s.capacity ∧ s.size = s.capacity

namespace Within

theorem grown (h : Within s t) (n : Nat) :
    t.grown n = 0 ∨ 0 < s.grown n ∧ s.grown n ≤ t.grown n := by
  unfold Statements.grown
  have hcapacity := h.capacity
  by_cases ht : t.capacity = 0
  · exact .inl (if_pos ht)
  · rw [if_neg ht, if_neg (by omega)]
    omega

theorem kept (h : Within s t) (ht : t.Bounded) (n : Nat) : (s.kept n).Sublist (t.kept n) := by
  have hcapacity := h.capacity
  unfold Statements.kept
  by_cases hzero : t.capacity = 0
  · rw [if_pos hzero]
    split
    · exact h.sublist
    · exact (List.take_sublist _ _).trans h.sublist
  · have hbounded : t.entries.length ≤ t.capacity := ht hzero
    rw [if_neg hzero, if_neg (by omega)]
    by_cases hn : s.capacity ≤ n
    · rw [Nat.sub_eq_zero_of_le hn]
      exact List.nil_sublist _
    · refine take_sublist_take h.sublist ?_
      rcases h.filled with heq | ⟨-, hsize⟩
      · rw [heq]
        omega
      · have hsize : s.entries.length = s.capacity := hsize
        omega

/-- If there is room for all, nothing was left out before, and nothing is now; otherwise the smaller one is full. -/
theorem filled_extended (h : Within s t) (es : List Statement) :
    (s.extended es).entries = (t.extended es).entries ∨
      0 < (s.extended es).capacity ∧ (s.extended es).size = (s.extended es).capacity := by
  have hcapacity := h.capacity
  have hfilled : s.entries = t.entries ∨ 0 < s.capacity ∧ s.entries.length = s.capacity := h.filled
  unfold extended size Statements.kept Statements.grown
  by_cases hzero : s.capacity = 0
  · left
    have heq : s.entries = t.entries := by
      rcases hfilled with heq | hfull
      · exact heq
      · omega
    simp only [if_pos hzero, if_pos (show t.capacity = 0 by omega), heq]
  · simp only [if_neg hzero]
    by_cases hroom : s.capacity - es.length ≤ s.entries.length
    · right
      rw [List.length_append, List.length_take_of_le hroom]
      omega
    · left
      have heq : s.entries = t.entries := by
        rcases hfilled with heq | hfull
        · exact heq
        · omega
      rw [List.take_of_length_le (by omega), heq]
      split
      · rfl
      · rw [← heq, List.take_of_length_le (by omega)]

theorem extended (h : Within s t) (ht : t.Bounded) (es : List Statement) :
    Within (s.extended es) (t.extended es) where
  sublist := (h.kept ht es.length).append_left es
  serial := congrArg (· + es.length) h.serial
  capacity := h.grown es.length
  filled := h.filled_extended es

/-- What the smaller registry finds, the larger one finds too. -/
theorem lookup_eq_some (h : Within s t) (hids : (t.entries.map Statement.id).Nodup) {id : Text} {e : Statement}
    (he : (s.lookup id).1 = some e) : (t.lookup id).1 = some e := by
  obtain hlookup | ⟨d, hd, rfl, hlookup⟩ := lookup_cases s id
  · rw [hlookup] at he
    cases he
  · rw [hlookup] at he
    obtain rfl := Option.some.inj he
    rw [lookup_of_mem hids (h.sublist.subset hd)]

theorem lookup (h : Within s t) (hids : (t.entries.map Statement.id).Nodup) (id : Text) :
    Within (s.lookup id).2 (t.lookup id).2 := by
  have hids' : (s.entries.map Statement.id).Nodup := hids.sublist (h.sublist.map _)
  by_cases hs : ∃ e ∈ s.entries, e.id = id
  · obtain ⟨e, he, rfl⟩ := hs
    have hperm := lookup_perm hids' e.id
    rw [lookup_of_mem hids' he] at hperm ⊢
    rw [lookup_of_mem hids (h.sublist.subset he)]
    refine ⟨(h.sublist.filter _).cons_cons e, h.serial, h.capacity, ?_⟩
    refine h.filled.imp (fun heq => by rw [heq]) fun ⟨hpos, hsize⟩ => ⟨hpos, ?_⟩
    exact hperm.length_eq.trans hsize
  · have hmiss : s.lookup id = (none, s) := by
      obtain hlookup | ⟨e, he, hid, -⟩ := lookup_cases s id
      · exact hlookup
      · exact absurd ⟨e, he, hid⟩ hs
    rw [hmiss]
    obtain hlookup | ⟨e, he, rfl, hlookup⟩ := lookup_cases t id
    · rw [hlookup]
      exact h
    · -- Only the larger registry has the statement, so the smaller one is full and does not change.
      rw [hlookup]
      refine ⟨?_, h.serial, h.capacity, .inr ?_⟩
      · have hfilter : s.entries.filter (·.id != e.id) = s.entries := by
          refine List.filter_eq_self.mpr fun d hd => ?_
          exact bne_iff_ne.mpr fun hid => hs ⟨d, hd, hid⟩
        have hsublist := h.sublist.filter (·.id != e.id)
        rw [hfilter] at hsublist
        exact hsublist.cons e
      · rcases h.filled with heq | hfull
        · exact absurd ⟨e, heq ▸ he, rfl⟩ hs
        · exact hfull

end Within

/-! ## Runs -/

/-- Registering depends only on the number of the next statement. -/
theorem Call.added_congr (c : Call) (h : s.nextSerial = t.nextSerial) : c.added s = c.added t := by
  cases c with
  | register target file session =>
      show [Statement.mk (idOf s.nextSerial) target file session] = [⟨idOf t.nextSerial, target, file, session⟩]
      rw [h]
  | registerAll targets file session => exact pushAll_congr file session targets h
  | lookup id => rfl
  | setCapacity capacity => rfl
  | clear => rfl

theorem Within.run (h : Within s t) (ht : t.Bounded) (hids : (t.entries.map Statement.id).Nodup) {c : Call}
    (hc : ∀ capacity, c ≠ .setCapacity capacity) : Within (c.run s) (c.run t) := by
  have hadded := c.added_congr h.serial
  cases c with
  | register target file session =>
      have hpush : (s.push target file session).1 = (t.push target file session).1 := List.singleton_inj.mp hadded
      show Within (s.register target file session).2 (t.register target file session).2
      rw [register_eq, register_eq, hpush]
      exact h.extended ht _
  | registerAll targets file session =>
      have hrecords : (s.registerAll targets file session).1 = (t.registerAll targets file session).1 := hadded
      show Within (s.registerAll targets file session).2.1 (t.registerAll targets file session).2.1
      rw [registerAll_eq, registerAll_eq, hrecords]
      exact h.extended ht _
  | lookup id => exact h.lookup hids id
  | setCapacity capacity => exact absurd rfl (hc capacity)
  | clear => exact ⟨List.Sublist.slnil, h.serial, h.capacity, .inl rfl⟩

theorem within_history {small large : Nat} (hcapacity : large = 0 ∨ 0 < small ∧ small ≤ large) {cs : List Call}
    (hcs : ∀ c ∈ cs, ∀ capacity, c ≠ .setCapacity capacity) :
    Within (history small cs).statements (history large cs).statements ∧
      (history small cs).issued = (history large cs).issued := by
  have hrun : ∀ {h k : History}, k.Sound → Within h.statements k.statements → h.issued = k.issued →
      Within (cs.foldl History.after h).statements (cs.foldl History.after k).statements ∧
        (cs.foldl History.after h).issued = (cs.foldl History.after k).issued := by
    induction cs with
    | nil => exact fun _ hwithin hissued => ⟨hwithin, hissued⟩
    | cons c cs ih =>
        intro h k hk hwithin hissued
        obtain ⟨hc, hcs⟩ := List.forall_mem_cons.mp hcs
        have hadded := c.added_congr hwithin.serial
        refine ih hcs (hk.after c) (hwithin.run hk.bounded hk.recent.nodup_ids hc) ?_
        show h.issued ++ _ = k.issued ++ _
        rw [hissued, hadded]
  exact hrun (sound_history large []) ⟨.slnil, rfl, hcapacity, .inl rfl⟩ rfl

/-- **Of two registries that start empty and are given the same calls, none of which sets a capacity, the one of larger
or of unlimited capacity holds at all times what the other holds, in the same order, has returned the same ids, and
finds the same statement wherever the other finds one.** -/
theorem history_sublist {small large : Nat} (hcapacity : large = 0 ∨ 0 < small ∧ small ≤ large) {cs : List Call}
    (hcs : ∀ c ∈ cs, ∀ capacity, c ≠ .setCapacity capacity) :
    (history small cs).statements.entries.Sublist (history large cs).statements.entries ∧
      (history small cs).issued = (history large cs).issued ∧
      ∀ id e, ((history small cs).statements.lookup id).1 = some e →
        ((history large cs).statements.lookup id).1 = some e := by
  obtain ⟨hwithin, hissued⟩ := within_history hcapacity hcs
  have hids := (sound_history large cs).recent.nodup_ids
  exact ⟨hwithin.sublist, hissued, fun _ _ he => hwithin.lookup_eq_some hids he⟩

/-- A registry of three has found a statement that a registry of two had dropped before. -/
theorem history_sublist_two_three :
    (history 3 [.registerAll [⟨1, [0], "if", none⟩, ⟨1, [1], "if", none⟩] "f" "s",
        .register ⟨1, [2], "if", none⟩ "f" "s", .lookup "stmt-1",
        .lookup "stmt-2"]).statements.entries.map Statement.id =
      ["stmt-2", "stmt-1", "stmt-3"] ∧
    (history 2 [.registerAll [⟨1, [0], "if", none⟩, ⟨1, [1], "if", none⟩] "f" "s",
        .register ⟨1, [2], "if", none⟩ "f" "s", .lookup "stmt-1", .lookup "stmt-2"]).statements.entries.Sublist
      (history 3 [.registerAll [⟨1, [0], "if", none⟩, ⟨1, [1], "if", none⟩] "f" "s",
        .register ⟨1, [2], "if", none⟩ "f" "s", .lookup "stmt-1", .lookup "stmt-2"]).statements.entries :=
  ⟨by decide, (history_sublist (.inr (by decide)) (by simp)).1⟩

end TreeQuery.Statements
