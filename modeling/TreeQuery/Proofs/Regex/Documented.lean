import TreeQuery.Regex.Library

/-!
# What a library documents

Of the many things that the syntax of regular expressions offers, few are relied on: an expression is a sequence of line
boundaries, single bytes and runs of any bytes, each written in one of the documented ways. Here is what a library says
about such expressions. It refuses none of them, and what it finds are the pieces of a text that the parts match one
after the other, with line boundaries at every line of the text. That a search ends is not promised.

* `LineStart`, `LineEnd`: the line boundaries of a text;
* `Item`, `Spelled`: the parts of an expression, and how a sequence of parts is written;
* `Item.Spans`, `Spans`: the pieces of a text that they match;
* `Library.Documented`: what a library says about them.
-/

namespace TreeQuery.Regex

set_option autoImplicit false

/-! ## Line boundaries -/

/-- The place lies between a carriage return and a line feed. -/
def InsideBreak (t : Text) (i : Nat) : Prop := 0 < i ∧ t[i - 1]? = some 0x0d ∧ t[i]? = some 0x0a
deriving Decidable

/-- The place is the start of the text or comes just after a line break. -/
def LineStart (t : Text) (i : Nat) : Prop := (i = 0 ∨ t[i - 1]?.any Byte.isBreak = true) ∧ ¬ InsideBreak t i
deriving Decidable

/-- The place is the end of the text or comes just before a line break. -/
def LineEnd (t : Text) (i : Nat) : Prop := (i = t.length ∨ t[i]?.any Byte.isBreak = true) ∧ ¬ InsideBreak t i
deriving Decidable

/-! ## Parts of expressions -/

/-- The bytes that do not stand for themselves. -/
def isSpecial (b : UInt8) : Bool := (".[\x7b\x7d()\\*+?|^$" : Text).elem b

inductive Item where
  | lineStart
  | lineEnd
  /-- Any single byte, line breaks included. -/
  | any
  /-- Any number of bytes. -/
  | anyRun
  | byte (b : UInt8)
deriving DecidableEq

/-- How an item is written. A backslash takes the meaning from a special byte, and may also stand before a closing
bracket, which has none. -/
inductive Item.Spelled : Item → Text → Prop where
  | lineStart : Spelled .lineStart "^"
  | lineEnd : Spelled .lineEnd "$"
  | any : Spelled .any "."
  | anyRun : Spelled .anyRun ".*"
  | plain (b : UInt8) : b ≠ 0 → isSpecial b = false → Spelled (.byte b) [b]
  | quoted (b : UInt8) : isSpecial b = true ∨ b = ']' → Spelled (.byte b) [0x5c, b]

/-- Items are written one after the other. No item starts like a repeat, so none repeats the item before it. -/
inductive Spelled : List Item → Text → Prop where
  | nil : Spelled [] []
  | cons {x : Item} {xs : List Item} {u v : Text} : x.Spelled u → Spelled xs v → Spelled (x :: xs) (u ++ v)

/-! ## What is matched -/

/-- The item matches the piece of the text from place `i` to place `j`. -/
def Item.Spans (ignoreCase : Bool) (t : Text) (i j : Nat) : Item → Prop
  | .lineStart => j = i ∧ LineStart t i
  | .lineEnd => j = i ∧ LineEnd t i
  | .any => j = i + 1 ∧ i < t.length
  | .anyRun => i ≤ j ∧ j ≤ t.length
  | .byte b => j = i + 1 ∧ t[i]?.any (Byte.same ignoreCase b) = true

/-- The items match neighbouring pieces of the text, from place `i` to place `j`. -/
def Spans (ignoreCase : Bool) (t : Text) (j : Nat) : List Item → Nat → Prop
  | [], i => i = j
  | x :: xs, i => ∃ l, x.Spans ignoreCase t i l ∧ Spans ignoreCase t j xs l

/-- What a library documents about sequences of items: it refuses none, and a search that it does not give up says
whether they match a piece of the text. -/
structure Library.Documented [Library] : Prop where
  accepts : ∀ {items : List Item} {s : Text} (ignoreCase : Bool), Spelled items s → refusal? ⟨s, ignoreCase⟩ = none
  finds : ∀ {items : List Item} {s t : Text} {ignoreCase found : Bool}, Spelled items s →
    search ⟨s, ignoreCase⟩ t = .ok found → (found = true ↔ ∃ i ≤ t.length, ∃ j, Spans ignoreCase t j items i)

/-! ## Lines -/

section Line

variable {t : Text} {i : Nat} (hline : ∀ b ∈ t, Byte.isBreak b = false)

include hline

theorem any_isBreak_getElem? : t[i]?.any Byte.isBreak = false := by
  cases hi : t[i]? with
  | none => rfl
  | some b => exact hline b (List.mem_of_getElem? hi)

theorem not_insideBreak : ¬ InsideBreak t i := by
  rintro ⟨-, hreturn, -⟩
  have hbreak := any_isBreak_getElem? hline (i := i - 1)
  rw [hreturn] at hbreak
  cases hbreak

/-- A text without line breaks is one line. -/
theorem lineStart_iff : LineStart t i ↔ i = 0 := by
  simp [LineStart, any_isBreak_getElem? hline, not_insideBreak hline]

theorem lineEnd_iff : LineEnd t i ↔ i = t.length := by
  simp [LineEnd, any_isBreak_getElem? hline, not_insideBreak hline]

end Line

end TreeQuery.Regex
