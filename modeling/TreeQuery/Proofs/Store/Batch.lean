import TreeQuery.Proofs.Store.Recency

/-!
# Batches against single registrations

A batch puts all its statements in front and evicts once; registering one by one evicts after each of them. What the
single registrations drop early is what the batch drops at the end, since each new statement pushes out the last of the
old ones and never one of its own batch, as long as the batch alone is within the capacity. A larger batch raises the
capacity to its own size, and then nothing else stays.

* `Reachable`: the registries that calls can lead to;
* `extended_nil`, `extended_extended`: what is extended twice is extended once by both;
* `registerEach`, `registerEach_ids`, `registerEach_eq`: registering one by one, the ids and the registry at the end;
* `registerAll_eq_registerEach`: a batch that fits is registered as its members are, and one that does not stays alone.
-/

namespace TreeQuery.Statements

set_option autoImplicit false

variable {s : Statements}

/-- Calls lead to the registry from an empty one. -/
def Reachable (s : Statements) : Prop := ∃ capacity cs, (history capacity cs).statements = s

theorem Reachable.bounded (h : s.Reachable) : s.Bounded := by
  obtain ⟨capacity, cs, rfl⟩ := h
  exact (sound_history capacity cs).bounded

/-! ## Extending step by step -/

theorem extended_nil (h : s.Bounded) : s.extended [] = s := by
  have hgrown : s.grown 0 = s.capacity := by
    unfold grown
    split <;> omega
  rw [← evict_append, List.length_nil, hgrown]
  exact h.evict_eq

/-- While there is room for all that is new, only what was there before is dropped, whether at once or step by step. -/
theorem extended_extended {es es' : List Statement} (hfit : s.capacity = 0 ∨ es.length + es'.length ≤ s.capacity) :
    (s.extended es).extended es' = s.extended (es' ++ es) := by
  have hserial : s.nextSerial + es.length + es'.length = s.nextSerial + (es' ++ es).length := by
    rw [List.length_append]
    omega
  unfold extended kept grown
  by_cases hzero : s.capacity = 0
  · simp only [if_pos hzero, hserial, List.append_assoc, ↓reduceIte]
  · have hmax : max s.capacity es.length = s.capacity := by omega
    have hkept : (es ++ s.entries.take (s.capacity - es.length)).take (s.capacity - es'.length) =
        es ++ s.entries.take (s.capacity - (es' ++ es).length) := by
      rw [List.take_append, List.take_of_length_le (by omega), List.take_take, List.length_append]
      congr 2
      omega
    have hmax' : max s.capacity es'.length = max s.capacity (es' ++ es).length := by
      rw [List.length_append]
      omega
    simp only [if_neg hzero, hmax, hkept, hmax', hserial, List.append_assoc]

/-! ## One by one -/

/-- Registers statements one by one, and returns their ids. -/
def registerEach (file session : Text) : List Reference → Statements → List Text × Statements
  | [], s => ([], s)
  | target :: targets, s =>
    let (id, s) := s.register target file session
    let (ids, s) := registerEach file session targets s
    (id :: ids, s)

/-- What comes after a statement has the same ids whether or not registering it has dropped others. -/
theorem pushAll_register (file session : Text) (target : Reference) (targets : List Reference) (s : Statements) :
    (pushAll file session targets (s.register target file session).2).1 =
      (pushAll file session targets (s.push target file session).2).1 :=
  pushAll_congr file session targets evict_nextSerial

theorem registerEach_ids (file session : Text) (targets : List Reference) (s : Statements) :
    (registerEach file session targets s).1 = (pushAll file session targets s).1.map Statement.id := by
  induction targets generalizing s with
  | nil => rfl
  | cons target targets ih =>
      show (s.register target file session).1 ::
        (registerEach file session targets (s.register target file session).2).1 = _
      rw [ih, pushAll_register]
      rfl

theorem registerEach_eq (file session : Text) (targets : List Reference) (hs : s.Bounded)
    (hfit : s.capacity = 0 ∨ targets.length ≤ s.capacity) :
    (registerEach file session targets s).2 = s.extended (pushAll file session targets s).1.reverse := by
  induction targets generalizing s with
  | nil => exact (extended_nil hs).symm
  | cons target targets ih =>
      rw [List.length_cons] at hfit
      have hcapacity : (s.register target file session).2.capacity = s.capacity := evict_capacity
      have hbounded : (s.register target file session).2.Bounded := bounded_evict _
      show (registerEach file session targets (s.register target file session).2).2 = s.extended
        ((s.push target file session).1 :: (pushAll file session targets (s.push target file session).2).1).reverse
      rw [ih hbounded (by omega), pushAll_register, register_eq, extended_extended, List.reverse_cons]
      rw [List.length_singleton, List.length_reverse, length_pushAll]
      omega

/-- **From every registry that calls can lead to, a batch within the capacity, or of any size if there is none, leaves
the registry as single registrations of its members in their order leave it, and returns statements with the ids that
these return. A larger batch is all that the registry holds afterwards, its last member in front, and the capacity is
then its size.** -/
theorem registerAll_eq_registerEach (hs : s.Reachable) (targets : List Reference) (file session : Text) :
    (s.capacity = 0 ∨ targets.length ≤ s.capacity →
      (s.registerAll targets file session).2.1 = (registerEach file session targets s).2 ∧
        (s.registerAll targets file session).1.map Statement.id = (registerEach file session targets s).1) ∧
    (s.capacity ≠ 0 → s.capacity < targets.length →
      (s.registerAll targets file session).2.1.entries = (s.registerAll targets file session).1.reverse ∧
        (s.registerAll targets file session).1.map Statement.target = targets ∧
        (s.registerAll targets file session).2.1.capacity = targets.length) := by
  have hrecords : (s.registerAll targets file session).1 = (pushAll file session targets s).1 :=
    pushAll_congr file session targets rfl
  rw [registerAll_eq]
  constructor
  · intro hfit
    rw [registerEach_eq file session targets hs.bounded hfit, registerEach_ids, hrecords]
    exact ⟨rfl, rfl⟩
  · intro hzero hlarge
    have hlength : (s.registerAll targets file session).1.reverse.length = targets.length := by
      rw [hrecords, List.length_reverse, length_pushAll]
    refine ⟨?_, map_target_registerAll s targets file session, ?_⟩
    · rw [extended, kept, if_neg hzero, hlength, Nat.sub_eq_zero_of_le (Nat.le_of_lt hlarge), List.take_zero,
        List.append_nil]
    · rw [extended, hlength, grown, if_neg hzero, Nat.max_eq_right (Nat.le_of_lt hlarge)]

/-- A registry of three that is full, and whose first statement was used last. -/
def fullOfThree : Statements :=
  (history 3 [.registerAll [⟨1, [0], "if", none⟩, ⟨1, [1], "if", none⟩, ⟨1, [2], "if", none⟩] "f" "s",
    .lookup "stmt-1"]).statements

/-- Of a batch of two, the registry keeps what was used last as well; a batch of four is alone in it. -/
theorem registerAll_eq_registerEach_full :
    (fullOfThree.registerAll [⟨1, [3], "if", none⟩, ⟨1, [4], "if", none⟩] "f" "s").2.1 =
      (registerEach "f" "s" [⟨1, [3], "if", none⟩, ⟨1, [4], "if", none⟩] fullOfThree).2 ∧
    (registerEach "f" "s" [⟨1, [3], "if", none⟩, ⟨1, [4], "if", none⟩] fullOfThree).2.entries.map Statement.id =
      ["stmt-5", "stmt-4", "stmt-1"] ∧
    (fullOfThree.registerAll [⟨1, [3], "if", none⟩, ⟨1, [4], "if", none⟩, ⟨1, [5], "if", none⟩, ⟨1, [6], "if", none⟩]
      "f" "s").2.1.capacity = 4 := by
  have hreachable : fullOfThree.Reachable := ⟨3, _, rfl⟩
  obtain ⟨hfit, -⟩ := registerAll_eq_registerEach hreachable [⟨1, [3], "if", none⟩, ⟨1, [4], "if", none⟩] "f" "s"
  obtain ⟨-, hlarge⟩ := registerAll_eq_registerEach hreachable
    [⟨1, [3], "if", none⟩, ⟨1, [4], "if", none⟩, ⟨1, [5], "if", none⟩, ⟨1, [6], "if", none⟩] "f" "s"
  exact ⟨(hfit (.inr (by decide))).1, by decide, (hlarge (by decide) (by decide)).2.2⟩

end TreeQuery.Statements
