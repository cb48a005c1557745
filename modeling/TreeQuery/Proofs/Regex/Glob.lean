import TreeQuery.Proofs.Regex.Engine
import TreeQuery.Proofs.Regex.Wildcard
import TreeQuery.Proofs.Result

/-!
# What a wildcard pattern matches

A wildcard pattern is compared with a text by a search for a regular expression, and a library says what the items of
the expression match, one by one. What the pattern matches can be said without any of this. Some piece of the text, from
a line start to a line end, is put together from one part for each byte of the pattern: any bytes for an asterisk, one
byte for a question mark, and for each other byte that byte up to case.

* `StandsFor`, `Matches`: what a pattern means, with a procedure that decides it;
* `spans_item`, `spans_units`, `spans_items`: what the items match for one byte, for all, and with the line boundaries;
* `matches_piece_iff`: the pieces of a single line;
* `accepts_iff_matches`: exactly the texts with a matching piece are accepted.
-/

namespace TreeQuery.Wildcard

set_option autoImplicit false

open Regex

variable {pattern t u : Text} {b : UInt8} {i j : Nat}

/-! ## Globs -/

/-- One byte of a pattern stands for a text: an asterisk for every text, a question mark for every single byte, and
each other byte for itself up to case. -/
def StandsFor (b : UInt8) (u : Text) : Prop :=
  if b = '*' then True else if b = '?' then u.length = 1 else u.lowered = Text.lowered [b]
deriving Decidable

/-- The text is put together from parts for which the bytes of the pattern stand. -/
inductive Matches : Text → Text → Prop where
  | nil : Matches [] []
  | cons {b : UInt8} {pattern u v : Text} : StandsFor b u → Matches pattern v → Matches (b :: pattern) (u ++ v)

theorem matches_nil_iff : Matches [] u ↔ u = [] := by
  constructor
  · rintro ⟨⟩
    rfl
  · rintro rfl
    exact .nil

theorem matches_cons_iff :
    Matches (b :: pattern) u ↔ ∃ n ≤ u.length, StandsFor b (u.take n) ∧ Matches pattern (u.drop n) := by
  constructor
  · rintro (_ | @⟨_, _, v, w, hv, hw⟩)
    exact ⟨v.length, by simp, by simpa using hv, by simpa using hw⟩
  · rintro ⟨n, -, hv, hw⟩
    have hu := Matches.cons hv hw
    rwa [List.take_append_drop] at hu

instance decidableMatches : (pattern u : Text) → Decidable (Matches pattern u)
  | [], u => decidable_of_iff _ matches_nil_iff.symm
  | b :: pattern, u =>
    have := decidableMatches pattern
    decidable_of_iff (∃ n < u.length + 1, StandsFor b (u.take n) ∧ Matches pattern (u.drop n))
      (by simp only [Nat.lt_succ_iff, matches_cons_iff])

/-! ## Pieces of a text -/

theorem length_extract (hj : j ≤ t.length) : (t.extract i j).length = j - i := by
  rw [List.length_take, List.length_drop]
  omega

theorem extract_eq_singleton {a : UInt8} (hj : j ≤ t.length) : t.extract i j = [a] ↔ j = i + 1 ∧ t[i]? = some a := by
  constructor
  · intro h
    have hji : j = i + 1 := by
      have hlength := length_extract (i := i) hj
      rw [h, List.length_singleton] at hlength
      omega
    have hhead : (t.extract i j).head? = t[i]? := by
      rw [List.head?_take, if_neg (by omega), List.head?_drop]
    exact ⟨hji, by rw [← hhead, h, List.head?_cons]⟩
  · rintro ⟨rfl, hi⟩
    rw [List.extract, Nat.add_sub_cancel_left, List.take_one, List.head?_drop, hi, Option.toList_some]

theorem matches_extract_cons (hij : i ≤ j) (hj : j ≤ t.length) : Matches (b :: pattern) (t.extract i j) ↔
    ∃ l, i ≤ l ∧ l ≤ j ∧ StandsFor b (t.extract i l) ∧ Matches pattern (t.extract l j) := by
  have htake : ∀ n ≤ j - i, (t.extract i j).take n = t.extract i (i + n) := by
    intro n hn
    rw [List.extract, List.extract, List.take_take, Nat.min_eq_left hn, Nat.add_sub_cancel_left]
  have hdrop : ∀ n, (t.extract i j).drop n = t.extract (i + n) j := by
    intro n
    rw [List.extract, List.extract, List.drop_take, List.drop_drop, Nat.sub_sub]
  rw [matches_cons_iff, length_extract hj]
  constructor
  · rintro ⟨n, hn, hb, hpattern⟩
    rw [htake n hn] at hb
    rw [hdrop n] at hpattern
    exact ⟨i + n, by omega, by omega, hb, hpattern⟩
  · rintro ⟨l, hil, hlj, hb, hpattern⟩
    obtain ⟨n, rfl⟩ := Nat.exists_eq_add_of_le hil
    refine ⟨n, by omega, ?_, ?_⟩
    · rwa [htake n (by omega)]
    · rwa [hdrop n]

/-! ## Items -/

/-- A byte that is no wildcard stands for the single bytes that are the same up to case. -/
theorem standsFor_byte (hone : b ≠ '?') (hmany : b ≠ '*') :
    StandsFor b u ↔ ∃ a, u = [a] ∧ Byte.same true b a = true := by
  rw [StandsFor, if_neg hmany, if_neg hone, Text.lowered, Text.lowered, List.map_singleton, List.map_eq_singleton_iff]
  exact exists_congr fun a => and_congr_right fun _ => eq_comm.trans beq_iff_eq.symm

/-- The item for a byte of a pattern matches the pieces that the byte stands for. -/
theorem spans_item : (item b).Spans true t i j ↔ i ≤ j ∧ j ≤ t.length ∧ StandsFor b (t.extract i j) := by
  unfold item
  split_ifs with hone hmany
  · have hstands : ∀ u, StandsFor b u ↔ u.length = 1 := fun u => by
      rw [StandsFor, if_neg (by rw [hone]; decide), if_pos hone]
    rw [Item.Spans, hstands]
    constructor
    · rintro ⟨rfl, hi⟩
      exact ⟨Nat.le_succ i, hi, by rw [length_extract hi]; omega⟩
    · rintro ⟨-, hj, hlength⟩
      rw [length_extract hj] at hlength
      omega
  · have hstands : ∀ u, StandsFor b u := fun u => by
      rw [StandsFor, if_pos hmany]
      trivial
    simp [Item.Spans, hstands]
  · rw [Item.Spans, standsFor_byte hone hmany, Option.any_eq_true]
    constructor
    · rintro ⟨rfl, a, ha, hsame⟩
      have hi : i < t.length := (List.getElem?_eq_some_iff.mp ha).1
      exact ⟨Nat.le_succ i, hi, a, (extract_eq_singleton hi).mpr ⟨rfl, ha⟩, hsame⟩
    · rintro ⟨-, hj, a, hextract, hsame⟩
      obtain ⟨rfl, ha⟩ := (extract_eq_singleton hj).mp hextract
      exact ⟨rfl, a, ha, hsame⟩

/-- The items for the bytes of a pattern match the pieces that the pattern matches; what comes after them starts where
such a piece ends. -/
theorem spans_units {xs : List Item} (hi : i ≤ t.length) : Spans true t j (pattern.map item ++ xs) i ↔
    ∃ l, i ≤ l ∧ l ≤ t.length ∧ Matches pattern (t.extract i l) ∧ Spans true t j xs l := by
  induction pattern generalizing i with
  | nil =>
      constructor
      · exact fun hxs => ⟨i, Nat.le_refl i, hi, by simp [matches_nil_iff], hxs⟩
      · rintro ⟨l, hil, hl, hempty, hxs⟩
        have hlength := length_extract (i := i) hl
        rw [matches_nil_iff.mp hempty, List.length_nil] at hlength
        rwa [List.map_nil, List.nil_append, show i = l by omega]
  | cons b pattern ih =>
      constructor
      · rintro ⟨l, hb, hmore⟩
        obtain ⟨hil, hl, hb⟩ := spans_item.mp hb
        obtain ⟨m, hlm, hm, hpattern, hxs⟩ := (ih hl).mp hmore
        exact ⟨m, hil.trans hlm, hm, (matches_extract_cons (hil.trans hlm) hm).mpr ⟨l, hil, hlm, hb, hpattern⟩, hxs⟩
      · rintro ⟨m, him, hm, hmatches, hxs⟩
        obtain ⟨l, hil, hlm, hb, hpattern⟩ := (matches_extract_cons him hm).mp hmatches
        have hl : l ≤ t.length := hlm.trans hm
        exact ⟨l, spans_item.mpr ⟨hil, hl, hb⟩, (ih hl).mpr ⟨m, hlm, hm, hpattern, hxs⟩⟩

theorem spans_items (hnul : 0 ∉ pattern) : (∃ i ≤ t.length, ∃ j, Spans true t j (items pattern) i) ↔
    ∃ i j, i ≤ j ∧ j ≤ t.length ∧ LineStart t i ∧ LineEnd t j ∧ Matches pattern (t.extract i j) := by
  have hwhole : Text.beforeNul pattern = pattern := by
    refine List.takeWhile_eq_self_iff.mpr fun b hb => ?_
    simpa using fun h : b = 0 => hnul (h ▸ hb)
  rw [items, if_neg hnul, hwhole]
  refine exists_congr fun i => ?_
  constructor
  · rintro ⟨hi, j, _, ⟨rfl, hstart⟩, hspans⟩
    obtain ⟨l, hil, hl, hmatches, _, ⟨-, hend⟩, -⟩ := (spans_units hi).mp hspans
    exact ⟨l, hil, hl, hstart, hend, hmatches⟩
  · rintro ⟨j, hij, hj, hstart, hend, hmatches⟩
    have hi : i ≤ t.length := hij.trans hj
    exact ⟨hi, j, i, ⟨rfl, hstart⟩, (spans_units hi).mpr ⟨j, hij, hj, hmatches, j, ⟨rfl, hend⟩, rfl⟩⟩

/-- A text without line breaks has one piece from a line start to a line end. -/
theorem matches_piece_iff (hline : ∀ b ∈ t, Byte.isBreak b = false) :
    (∃ i j, i ≤ j ∧ j ≤ t.length ∧ LineStart t i ∧ LineEnd t j ∧ Matches pattern (t.extract i j)) ↔
      Matches pattern t := by
  simp only [lineStart_iff hline, lineEnd_iff hline]
  constructor
  · rintro ⟨i, j, -, -, rfl, rfl, hmatches⟩
    simpa using hmatches
  · intro hmatches
    exact ⟨0, t.length, Nat.zero_le _, Nat.le_refl _, rfl, rfl, by simpa using hmatches⟩

/-! ## Searching -/

/-- **With a library of regular expressions as documented: a pattern with wildcards and without NUL bytes accepts a
text, whether case is to be ignored or not, exactly if the text has a piece from a line start to a line end that the
pattern matches; so it accepts a text without line breaks exactly if it matches all of it. There is no answer only if
the library gives up the search.** -/
theorem accepts_iff_matches [Library] (hlib : Library.Documented) (hwild : occursIn pattern = true)
    (hnul : 0 ∉ pattern) (t : Text) (ignoreCase : Bool) :
    (∀ found, accepts pattern t ignoreCase = .ok found →
      (found = true ↔
        ∃ i j, i ≤ j ∧ j ≤ t.length ∧ LineStart t i ∧ LineEnd t j ∧ Matches pattern (t.extract i j)) ∧
      ((∀ b ∈ t, Byte.isBreak b = false) → (found = true ↔ Matches pattern t))) ∧
    (∀ e, accepts pattern t ignoreCase = .error e ↔
      ∃ message, Library.search (regex pattern) t = .error message ∧ e = .givenUp message) := by
  rw [accepts_of_occursIn hlib hwild]
  refine ⟨fun found hfound => ?_, fun e => mapError_eq_error⟩
  have hpieces : found = true ↔
      ∃ i j, i ≤ j ∧ j ≤ t.length ∧ LineStart t i ∧ LineEnd t j ∧ Matches pattern (t.extract i j) :=
    (hlib.finds (spelled_regex pattern) (mapError_eq_ok.mp hfound)).trans (spans_items hnul)
  exact ⟨hpieces, fun hline => hpieces.trans (matches_piece_iff hline)⟩

open scoped Engine

/-- The second line matches up to the end of the text; no line starts between carriage return and line feed. -/
theorem accepts_iff_matches_second_line :
    Library.Documented ∧ occursIn "g?t*" = true ∧ 0 ∉ Text.ofString "g?t*" ∧
      accepts "g?t*" "set\r\nGETName" false = .ok true := by
  have hwild : occursIn "g?t*" = true := by decide
  obtain ⟨hfound, hfails⟩ := accepts_iff_matches Engine.documented hwild (by decide) "set\r\nGETName" false
  refine ⟨Engine.documented, hwild, by decide, ?_⟩
  cases haccepts : accepts "g?t*" "set\r\nGETName" false with
  | ok found =>
      rw [(hfound found haccepts).1.mpr ⟨5, 12, by decide, by decide, by decide, by decide, by decide⟩]
  | error e =>
      obtain ⟨message, hsearch, -⟩ := (hfails e).mp haccepts
      cases hsearch

end TreeQuery.Wildcard
