import Mathlib.Data.List.TakeWhile
import TreeQuery.Proofs.Regex.Documented
import TreeQuery.Wildcard

/-!
# The regular expression for a wildcard pattern

Every byte of a wildcard pattern is written as one item of a regular expression: a wildcard as any byte or any bytes,
a byte with a meaning of its own after a backslash, and each other byte as it is. So the expression for a pattern is
spelled as a sequence of items, whatever the bytes are, and no library refuses it.

* `item`, `items`: the items for one byte and for a pattern;
* `beforeNul_source`: a NUL byte in the pattern cuts off the rest and the line end;
* `spelled_regex`, `refusal?_regex`: the expression is spelled as the items, and it is not refused.
-/

namespace TreeQuery.Wildcard

set_option autoImplicit false

open Regex

variable {b : UInt8}

/-! ## Items -/

/-- The item for one byte of a pattern. -/
def item (b : UInt8) : Item := if b = '?' then .any else if b = '*' then .anyRun else .byte b

/-- The items for a pattern: from a line start, one for each byte up to the first NUL byte, and if there is none, up to
a line end. -/
def items (pattern : Text) : List Item :=
  .lineStart :: ((Text.beforeNul pattern).map item ++ if 0 ∈ pattern then [] else [.lineEnd])

/-- A special byte is escaped in a pattern, unless it is a wildcard. -/
theorem isSpecial_iff : isSpecial b = true ∨ b = ']' ↔ isWild b = true ∨ needsEscape b = true := by
  have hsame : (0x5d :: ".[\x7b\x7d()\\*+?|^$" : Text).Perm (0x2a :: 0x3f :: "\\^$.|+()[]\x7b\x7d") := by decide
  rw [isSpecial, isWild, needsEscape, List.elem_iff, List.elem_iff, Bool.or_eq_true, beq_iff_eq, beq_iff_eq, or_assoc,
    or_comm, ← List.mem_cons, ← List.mem_cons, ← List.mem_cons]
  exact hsame.mem_iff

theorem spelled_unit (hb : b ≠ 0) : (item b).Spelled (unit b) := by
  unfold item unit
  by_cases hone : b = '?'
  · rw [if_pos hone, if_pos hone]
    exact .any
  · rw [if_neg hone, if_neg hone]
    by_cases hmany : b = '*'
    · rw [if_pos hmany, if_pos hmany]
      exact .anyRun
    · rw [if_neg hmany, if_neg hmany]
      by_cases hescape : needsEscape b = true
      · rw [if_pos hescape]
        exact .quoted b (isSpecial_iff.mpr (.inr hescape))
      · rw [if_neg hescape]
        have hwild : ¬ isWild b = true := by simp [isWild, show b ≠ 0x3f from hone, show b ≠ 0x2a from hmany]
        exact .plain b hb (Bool.eq_false_iff.mpr fun h => (isSpecial_iff.mp (.inl h)).elim hwild hescape)

theorem spelled_units {pattern s : Text} {xs : List Item} (hnul : 0 ∉ pattern) (hs : Spelled xs s) :
    Spelled (pattern.map item ++ xs) (pattern.flatMap unit ++ s) := by
  induction pattern with
  | nil => exact hs
  | cons b pattern ih =>
      rw [List.mem_cons, not_or] at hnul
      rw [List.flatMap_cons, List.append_assoc]
      exact .cons (spelled_unit (Ne.symm hnul.1)) (ih hnul.2)

/-! ## NUL bytes -/

theorem zero_notMem_unit (h : b ≠ 0) : 0 ∉ unit b := by
  rw [unit]
  split_ifs
  · decide
  · decide
  · simpa using h.symm
  · simpa using h.symm

theorem beforeNul_units (pattern r : Text) : Text.beforeNul (pattern.flatMap unit ++ r) =
    (Text.beforeNul pattern).flatMap unit ++ if 0 ∈ pattern then [] else Text.beforeNul r := by
  induction pattern with
  | nil => simp [Text.beforeNul]
  | cons b pattern ih =>
      by_cases hb : b = 0
      · subst hb
        rfl
      · have hunit : ∀ c ∈ unit b, (c != 0) = true := by
          intro c hc
          simpa using fun h : c = 0 => zero_notMem_unit hb (h ▸ hc)
        have hzero : 0 ∈ b :: pattern ↔ 0 ∈ pattern := by simp [Ne.symm hb]
        simp only [Text.beforeNul] at ih ⊢
        rw [List.flatMap_cons, List.append_assoc, List.takeWhile_append_of_pos hunit, ih,
          List.takeWhile_cons_of_pos (by simpa using hb), List.flatMap_cons, List.append_assoc]
        simp only [hzero]

/-- The regular expression ends where the pattern has a NUL byte, before the line end. -/
theorem beforeNul_source (pattern : Text) : Text.beforeNul (source pattern) =
    0x5e :: ((Text.beforeNul pattern).flatMap unit ++ if 0 ∈ pattern then [] else [0x24]) := by
  have hsource : source pattern = 0x5e :: (pattern.flatMap unit ++ [0x24]) := rfl
  have hunits := beforeNul_units pattern [0x24]
  rw [hsource]
  exact congrArg (0x5e :: ·) hunits

/-! ## The whole expression -/

theorem spelled_regex (pattern : Text) : Spelled (items pattern) (regex pattern).source := by
  have hnul : 0 ∉ Text.beforeNul pattern := fun h => by simpa using List.mem_takeWhile_imp h
  have hsource : (regex pattern).source = Text.beforeNul (source pattern) := rfl
  rw [hsource, beforeNul_source]
  refine .cons .lineStart (spelled_units hnul ?_)
  split_ifs
  · exact .nil
  · exact .cons .lineEnd .nil

variable [Library]

/-- There is a regular expression for every pattern. -/
theorem refusal?_regex (hlib : Library.Documented) (pattern : Text) : Library.refusal? (regex pattern) = none :=
  hlib.accepts true (spelled_regex pattern)

/-- The pattern is never the reason why a comparison fails. -/
theorem accepts_of_occursIn (hlib : Library.Documented) {pattern : Text} (hwild : occursIn pattern = true) (t : Text)
    (ignoreCase : Bool) : accepts pattern t ignoreCase = (regex pattern).foundIn t := by
  rw [accepts, if_pos hwild, checked, refusal?_regex hlib]
  rfl

end TreeQuery.Wildcard
