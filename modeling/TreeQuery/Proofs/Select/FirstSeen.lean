import Mathlib.Data.List.Induction
import TreeQuery.Proofs.Select.Distinct

/-!
# The first occurrence of each member

How `distinct` goes together with the other operations on lists. What is seen first in a list that is put together is
what is seen first in its front part, and after it what the rest has to add; so repetitions may be dropped early or
late, before a filter or after it, without a difference in what comes out or in which order.

* `appendUnique_eq`, `distinct_eq_eraseDups`: the two operations through the one of the standard library;
* `distinct_append`, `filter_distinct`: a list that is put together, and a list that is filtered;
* `distinct_flatMap_distinct`, `distinct_distinct_flatMap`: repetitions inside and outside of a union;
* `pairwise_distinct_flatMap`: when a union is in order.
-/

namespace TreeQuery

set_option autoImplicit false

variable {α β : Type} [DecidableEq α] {xs ys : List α}

/-! ## One list -/

theorem appendUnique_eq (xs ys : List α) : appendUnique xs ys = xs ++ (ys.filter (· ∉ xs)).eraseDups := by
  induction ys generalizing xs with
  | nil => simp [appendUnique]
  | cons y ys ih =>
      rw [appendUnique]
      by_cases hy : y ∈ xs
      · rw [if_pos hy, ih, List.filter_cons_of_neg (by simpa using hy)]
      · rw [if_neg hy, ih, List.filter_cons_of_pos (by simpa using hy), List.eraseDups_cons, List.filter_filter,
          List.append_assoc, List.singleton_append]
        congr 4
        funext z
        by_cases hz : z = y <;> simp [hz]

theorem distinct_eq_eraseDups (xs : List α) : distinct xs = xs.eraseDups := by
  rw [distinct, appendUnique_eq, List.nil_append, List.filter_eq_self.mpr fun x _ => by simp]

theorem filter_appendUnique (keep : α → Bool) (xs ys : List α) :
    (appendUnique xs ys).filter keep = appendUnique (xs.filter keep) (ys.filter keep) := by
  induction ys generalizing xs with
  | nil => rfl
  | cons y ys ih =>
      rw [appendUnique]
      by_cases hkeep : keep y = true
      · rw [List.filter_cons_of_pos hkeep, appendUnique]
        by_cases hy : y ∈ xs
        · rw [if_pos hy, if_pos (List.mem_filter.mpr ⟨hy, hkeep⟩), ih]
        · rw [if_neg hy, if_neg (fun h => hy (List.mem_filter.mp h).1), ih, List.filter_append,
            List.filter_cons_of_pos hkeep, List.filter_nil]
      · rw [List.filter_cons_of_neg hkeep]
        by_cases hy : y ∈ xs
        · rw [if_pos hy, ih]
        · rw [if_neg hy, ih, List.filter_append, List.filter_cons_of_neg hkeep, List.filter_nil, List.append_nil]

theorem filter_distinct (keep : α → Bool) (xs : List α) : (distinct xs).filter keep = distinct (xs.filter keep) :=
  filter_appendUnique keep [] xs

/-- Of the rest of a list, only what the front part lacks is new. -/
theorem distinct_append (xs ys : List α) : distinct (xs ++ ys) = distinct xs ++ (distinct ys).filter (· ∉ xs) := by
  rw [filter_distinct, distinct_eq_eraseDups, distinct_eq_eraseDups, distinct_eq_eraseDups, List.eraseDups_append,
    List.removeAll]
  simp

theorem distinct_append_of_subset (h : ys ⊆ xs) : distinct (xs ++ ys) = distinct xs := by
  rw [distinct_append, List.filter_eq_nil_iff.mpr, List.append_nil]
  intro y hy
  simpa using h (mem_distinct.mp hy)

theorem distinct_concat (xs : List α) (x : α) :
    distinct (xs ++ [x]) = if x ∈ xs then distinct xs else distinct xs ++ [x] := by
  by_cases hx : x ∈ xs
  · rw [if_pos hx, distinct_append_of_subset (by simpa using hx)]
  · rw [if_neg hx, distinct_append]
    simp [distinct, appendUnique, hx]

theorem distinct_sublist (xs : List α) : (distinct xs).Sublist xs := by
  induction xs using List.reverseRecOn with
  | nil => exact .slnil
  | append_singleton xs x ih =>
      rw [distinct_concat]
      split
      · exact ih.trans (List.sublist_append_left xs [x])
      · exact ih.append (.refl [x])

theorem distinct_of_nodup (h : xs.Nodup) : distinct xs = xs := by
  induction xs using List.reverseRecOn with
  | nil => rfl
  | append_singleton xs x ih =>
      obtain ⟨hxs, -, hdisjoint⟩ := List.nodup_append.mp h
      have hx : x ∉ xs := fun hx => hdisjoint x hx x List.mem_cons_self rfl
      rw [distinct_concat, if_neg hx, ih hxs]

theorem distinct_distinct (xs : List α) : distinct (distinct xs) = distinct xs := distinct_of_nodup (nodup_distinct xs)

/-! ## Unions -/

/-- What is new in a list depends only on which members have come before. -/
theorem distinct_append_congr {xs' ys' : List α} (hxs : distinct xs = distinct xs') (hys : distinct ys = distinct ys') :
    distinct (xs ++ ys) = distinct (xs' ++ ys') := by
  have hmem : ∀ x, x ∈ xs ↔ x ∈ xs' := fun x => by rw [← mem_distinct, hxs, mem_distinct]
  rw [distinct_append, distinct_append, hxs, hys]
  simp only [hmem]

/-- Repetitions inside the parts of a union make no difference. -/
theorem distinct_flatMap_distinct (f : β → List α) (xs : List β) :
    distinct (xs.flatMap fun x => distinct (f x)) = distinct (xs.flatMap f) := by
  induction xs with
  | nil => rfl
  | cons x xs ih =>
      rw [List.flatMap_cons, List.flatMap_cons]
      exact distinct_append_congr (distinct_distinct (f x)) ih

/-- Nor do parts that come again. -/
theorem distinct_distinct_flatMap [DecidableEq β] (f : β → List α) (xs : List β) :
    distinct ((distinct xs).flatMap f) = distinct (xs.flatMap f) := by
  induction xs using List.reverseRecOn with
  | nil => rfl
  | append_singleton xs x ih =>
      rw [distinct_concat, List.flatMap_append, List.flatMap_singleton]
      split
      · rename_i hx
        rw [ih, distinct_append_of_subset fun y hy => List.mem_flatMap.mpr ⟨x, hx, hy⟩]
      · rw [List.flatMap_append, List.flatMap_singleton]
        exact distinct_append_congr ih rfl

/-- A union is in order if each part is, and if of two parts each member of the second has come in the first or comes
after all of it. -/
theorem pairwise_distinct_flatMap {r : α → α → Prop} {f : β → List α} {xs : List β} (hf : ∀ x ∈ xs, (f x).Pairwise r)
    (hxs : xs.Pairwise fun x x' => ∀ a ∈ f x, ∀ b ∈ f x', b ∈ f x ∨ r a b) :
    (distinct (xs.flatMap f)).Pairwise r := by
  induction xs with
  | nil => exact .nil
  | cons x xs ih =>
      obtain ⟨hx, hf⟩ := List.forall_mem_cons.mp hf
      obtain ⟨hcross, hxs⟩ := List.pairwise_cons.mp hxs
      rw [List.flatMap_cons, distinct_append, List.pairwise_append]
      refine ⟨hx.sublist (distinct_sublist _), (ih hf hxs).sublist List.filter_sublist, fun a ha b hb => ?_⟩
      obtain ⟨hb, hnew⟩ := List.mem_filter.mp hb
      obtain ⟨x', hx', hb⟩ := List.mem_flatMap.mp (mem_distinct.mp hb)
      rcases hcross x' hx' a (mem_distinct.mp ha) b hb with hseen | hab
      · exact absurd hseen (of_decide_eq_true hnew)
      · exact hab

end TreeQuery
