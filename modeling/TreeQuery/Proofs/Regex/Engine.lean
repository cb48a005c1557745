import Mathlib.Tactic.FinCases
import TreeQuery.Proofs.Regex.Documented
import TreeQuery.Regex.Engine

/-!
# The matcher does what is documented

The matcher starts at each place of a text in turn, goes back to try fewer bytes for a repeat, and looks at line
boundaries on its way. On a sequence of items it finds exactly the pieces that the items match.

* `Cursor.place`, `Pattern.foundIn_iff`: places of a text, and a search as a search for a place;
* `Item.symbols`, `symbols?_spelled`: what is read for items;
* `Item.pattern`, `along`, `Builds`: what is built from it, told by how it runs;
* `isSome_along`: where the matcher gets for items;
* `Engine.documented`: the matcher as a library.
-/

namespace TreeQuery.Regex

set_option autoImplicit false

variable {t : Text} {i j : Nat} {ignoreCase : Bool} {k : Continuation}

/-! ## Places -/

/-- The place in a text with `i` bytes before it. -/
def Cursor.place (t : Text) (i : Nat) : Cursor where
  pos := i
  prev := match i with
    | 0 => none
    | k + 1 => t[k]?
  rest := t.drop i
  groups := []

theorem Cursor.isSome_step?_bind {test : UInt8 → Bool} :
    (((place t i).step? test).bind k).isSome = true ↔
      ∃ b, t[i]? = some b ∧ test b = true ∧ (k (place t (i + 1))).isSome = true := by
  unfold step?
  cases hi : t[i]? with
  | none =>
      have hrest : (place t i).rest = [] := List.drop_eq_nil_iff.mpr (List.getElem?_eq_none_iff.mp hi)
      rw [hrest]
      simp
  | some b =>
      obtain ⟨hlt, hb⟩ := List.getElem?_eq_some_iff.mp hi
      have hrest : (place t i).rest = b :: t.drop (i + 1) := hb ▸ List.drop_eq_getElem_cons hlt
      have hnext : place t (i + 1) = ⟨(place t i).pos + 1, some b, t.drop (i + 1), (place t i).groups⟩ := by
        rw [← hi]
        rfl
      rw [hrest, hnext]
      by_cases htest : test b = true <;> simp [htest]

/-- From a place on, all later places are listed. -/
theorem Cursor.onward_place (hi : i ≤ t.length) :
    onward i (place t i).prev (t.drop i) = (List.range' i (t.length + 1 - i)).map (place t) := by
  -- The list is built from its end, so the induction is on the bytes that are left.
  induction hn : t.length - i generalizing i with
  | zero =>
      obtain rfl : i = t.length := by omega
      have hend : place t t.length = ⟨t.length, (place t t.length).prev, [], []⟩ := by
        rw [← List.drop_length (l := t)]
        rfl
      rw [List.drop_length, onward, ← hend, Nat.add_sub_cancel_left]
      rfl
  | succ n ih =>
      have hlt : i < t.length := by omega
      have hrest : t.drop i = t[i] :: t.drop (i + 1) := List.drop_eq_getElem_cons hlt
      have hthis : place t i = ⟨i, (place t i).prev, t[i] :: t.drop (i + 1), []⟩ := by
        rw [← hrest]
        rfl
      have hnext : some t[i] = (place t (i + 1)).prev := (List.getElem?_eq_getElem hlt).symm
      rw [hrest, onward, ← hthis, hnext, ih hlt (by omega), show t.length + 1 - i = t.length + 1 - (i + 1) + 1 by omega,
        List.range'_succ, List.map_cons]

theorem Pattern.foundIn_iff {p : Pattern} :
    p.foundIn ignoreCase t = true ↔ ∃ i ≤ t.length, (p.run ignoreCase (.place t i) some).isSome = true := by
  have hplaces : Cursor.onward 0 none t = (List.range' 0 (t.length + 1)).map (Cursor.place t) :=
    Cursor.onward_place (Nat.zero_le _)
  rw [foundIn, hplaces, List.any_map, List.any_eq_true]
  refine exists_congr fun i => and_congr_left fun _ => ?_
  rw [List.mem_range'_1]
  omega

theorem splitsBreak_place : (Cursor.place t i).splitsBreak = true ↔ InsideBreak t i := by
  unfold Cursor.splitsBreak InsideBreak Cursor.place
  cases i with
  | zero => simp
  | succ k => simp [List.head?_drop]

theorem atLineStart_place (hi : i ≤ t.length) : (Cursor.place t i).atLineStart = true ↔ LineStart t i := by
  rw [Cursor.atLineStart, Bool.and_eq_true, Bool.not_eq_true', Bool.eq_false_iff, ne_eq, splitsBreak_place, LineStart]
  refine and_congr_left fun _ => ?_
  cases i with
  | zero => simp [Cursor.place]
  | succ k =>
      have hprev : (Cursor.place t (k + 1)).prev = some t[k] := List.getElem?_eq_getElem hi
      simp [hprev, List.getElem?_eq_getElem hi]

theorem atLineEnd_place (hi : i ≤ t.length) : (Cursor.place t i).atLineEnd = true ↔ LineEnd t i := by
  rw [Cursor.atLineEnd, Bool.and_eq_true, Bool.not_eq_true', Bool.eq_false_iff, ne_eq, splitsBreak_place, LineEnd]
  refine and_congr_left fun _ => ?_
  have hhead : (Cursor.place t i).rest.head? = t[i]? := List.head?_drop
  rw [hhead]
  rcases Nat.eq_or_lt_of_le hi with rfl | hlt
  · simp
  · simp [List.getElem?_eq_getElem hlt, Nat.ne_of_lt hlt]

/-! ## Reading -/

/-- The symbols for an item. -/
def Item.symbols : Item → List Symbol
  | .lineStart => [.anchor .lineStart]
  | .lineEnd => [.anchor .lineEnd]
  | .any => [.atom .any]
  | .anyRun => [.atom .any, .times 0 none false]
  | .byte b => [.atom (.byte b)]

theorem symbol?_plain {b : UInt8} (hb : isSpecial b = false) (r : Text) : symbol? b r = some (.atom (.byte b), 0) := by
  have hne : ∀ c, isSpecial c = true → b ≠ c := by
    rintro c hc rfl
    simp [hb] at hc
  rw [symbol?, if_neg (hne _ rfl), if_neg (hne _ rfl), if_neg (hne _ rfl), if_neg (hne _ rfl), if_neg (hne _ rfl),
    if_neg (hne _ rfl), if_neg (hne _ rfl), if_neg (hne _ rfl), if_neg (hne _ rfl), if_neg (hne _ rfl),
    if_neg (hne _ rfl), if_neg (hne _ rfl)]

/-- After a backslash, none of these bytes is a class, an anchor or a reference. -/
theorem symbol?_quoted {b : UInt8} (hb : isSpecial b = true ∨ b = ']') (r : Text) :
    symbol? 0x5c (b :: r) = some (.atom (.byte b), 1) := by
  have hmem : b ∈ (0x5d :: ".[\x7b\x7d()\\*+?|^$" : Text) :=
    List.mem_cons.mpr (hb.symm.imp id List.elem_iff.mp)
  fin_cases hmem <;> rfl

/-- The repeat is reluctant only if a question mark follows. -/
theorem symbol?_star {r : Text} (hr : r.head? ≠ some 0x3f) : symbol? 0x2a r = some (.times 0 none false, 0) := by
  show some (timesFrom 0 none 0 r) = _
  rw [timesFrom, if_neg]
  intro h
  obtain ⟨u, rfl⟩ := List.isPrefixOf_iff_prefix.mp h
  exact hr rfl

theorem symbols?_of_symbol? {b : UInt8} {r : Text} {s : Symbol} {n : Nat} (h : symbol? b r = some (s, n)) :
    symbols? (b :: r) = (symbols? (r.drop n)).map (s :: ·) := by
  rw [symbols?, h, Option.map_eq_bind]
  rfl

/-- No item starts with a question mark, so none makes the repeat before it reluctant. -/
theorem Spelled.head?_ne {xs : List Item} {s : Text} (h : Spelled xs s) : s.head? ≠ some 0x3f := by
  cases h with
  | nil => exact nofun
  | cons hx hxs =>
      cases hx with
      | plain b hnul hb =>
          rintro ⟨⟩
          cases hb
      | _ => exact nofun

theorem symbols?_item {x : Item} {u r : Text} (hx : x.Spelled u) (hr : r.head? ≠ some 0x3f) :
    symbols? (u ++ r) = (symbols? r).map (x.symbols ++ ·) := by
  cases hx with
  | lineStart => exact symbols?_of_symbol? (b := 0x5e) rfl
  | lineEnd => exact symbols?_of_symbol? (b := 0x24) rfl
  | any => exact symbols?_of_symbol? (b := 0x2e) rfl
  | anyRun =>
      refine (symbols?_of_symbol? (b := 0x2e) (r := 0x2a :: r) rfl).trans ?_
      rw [List.drop_zero, symbols?_of_symbol? (symbol?_star hr), List.drop_zero, Option.map_map]
      rfl
  | plain b hnul hb => exact symbols?_of_symbol? (symbol?_plain hb r)
  | quoted b hb => exact symbols?_of_symbol? (symbol?_quoted hb r)

theorem symbols?_spelled {xs : List Item} {s : Text} (h : Spelled xs s) :
    symbols? s = some (xs.flatMap Item.symbols) := by
  induction h with
  | nil => rw [symbols?]; rfl
  | cons hx hxs ih =>
      rw [symbols?_item hx hxs.head?_ne, ih]
      rfl

/-! ## Building -/

/-- What is built for an item. -/
def Item.pattern : Item → Pattern
  | .lineStart => .lineStart
  | .lineEnd => .lineEnd
  | .any => .any
  | .anyRun => .iterate 0 none false .any
  | .byte b => .byte b

/-- Runs items one after the other and continues with `k`. -/
def along (ignoreCase : Bool) (xs : List Item) (k : Continuation) : Continuation :=
  xs.foldr (fun x k c => x.pattern.run ignoreCase c k) k

theorem run_join (p q : Pattern) (c : Cursor) :
    (Level.join p q).run ignoreCase c k = p.run ignoreCase c fun d => q.run ignoreCase d k := by
  rw [Level.join]
  split_ifs with hp
  · rw [hp]
    rfl
  · rfl

/-- All groups are closed, there are no alternatives, and what has been built runs the items. -/
structure Builds (s : Builder) (xs : List Item) : Prop where
  frames : s.frames = []
  choices : s.level.choices = none
  runs : ∀ ignoreCase c k, s.level.current.run ignoreCase c k = along ignoreCase xs k c

theorem builds_start : Builds .start [] := ⟨rfl, rfl, fun _ _ _ => rfl⟩

/-- Items are added at the end, and the parts of a sequence are joined from the left. -/
theorem Builds.runs_join {s : Builder} {xs : List Item} (h : Builds s xs) (x : Item) (c : Cursor) :
    (Level.join s.level.current x.pattern).run ignoreCase c k = along ignoreCase (xs ++ [x]) k c := by
  rw [run_join, h.runs, along, along, List.foldr_append]
  rfl

theorem Builds.item {s : Builder} {xs : List Item} (h : Builds s xs) (x : Item) :
    ∃ s', x.symbols.foldlM Builder.push? s = some s' ∧ Builds s' (xs ++ [x]) := by
  cases x with
  | lineStart => exact ⟨_, rfl, h.frames, h.choices, fun _ c _ => h.runs_join .lineStart c⟩
  | lineEnd => exact ⟨_, rfl, h.frames, h.choices, fun _ c _ => h.runs_join .lineEnd c⟩
  | any => exact ⟨_, rfl, h.frames, h.choices, fun _ c _ => h.runs_join .any c⟩
  | anyRun => exact ⟨_, rfl, h.frames, h.choices, fun _ c _ => h.runs_join .anyRun c⟩
  | byte b => exact ⟨_, rfl, h.frames, h.choices, fun _ c _ => h.runs_join (.byte b) c⟩

theorem Builds.items {s : Builder} {xs : List Item} (h : Builds s xs) (ys : List Item) :
    ∃ s', (ys.flatMap Item.symbols).foldlM Builder.push? s = some s' ∧ Builds s' (xs ++ ys) := by
  induction ys generalizing s xs with
  | nil => exact ⟨s, rfl, by rwa [List.append_nil]⟩
  | cons y ys ih =>
      obtain ⟨s', hs', hbuilds⟩ := h.item y
      obtain ⟨s'', hs'', hbuilds⟩ := ih hbuilds
      refine ⟨s'', ?_, by rwa [List.append_assoc] at hbuilds⟩
      rw [List.flatMap_cons, List.foldlM_append, hs']
      exact hs''

theorem read?_spelled {xs : List Item} {s : Text} (h : Spelled xs s) :
    ∃ p, Pattern.read? s = some p ∧ ∀ ignoreCase c k, p.run ignoreCase c k = along ignoreCase xs k c := by
  obtain ⟨b, hb, hbuilds⟩ := builds_start.items xs
  refine ⟨b.level.current, ?_, hbuilds.runs⟩
  rw [Pattern.read?, symbols?_spelled h, Option.bind_some, hb, Option.bind_some, Builder.finish?, hbuilds.frames,
    Level.whole, hbuilds.choices]
  rfl

/-! ## Matching -/

/-- Any bytes up to a number lead to every place that is not further away. -/
theorem isSome_upTo_any {n : Nat} (hi : i ≤ t.length) :
    (upTo (Pattern.any.run ignoreCase) false n (.place t i) k).isSome = true ↔
      ∃ j, i ≤ j ∧ j ≤ i + n ∧ j ≤ t.length ∧ (k (.place t j)).isSome = true := by
  induction n generalizing i with
  | zero =>
      rw [upTo]
      constructor
      · exact fun hk => ⟨i, Nat.le_refl i, Nat.le_refl i, hi, hk⟩
      · rintro ⟨j, hij, hji, -, hk⟩
        rwa [Nat.le_antisymm hij hji]
  | succ n ih =>
      -- A round goes over a byte if there is one, so the rounds do not end for want of movement.
      have hagain : (Pattern.any.run ignoreCase (.place t i) fun d =>
          if (Cursor.place t i).pos < d.pos then upTo (Pattern.any.run ignoreCase) false n d k else k d).isSome = true ↔
          ∃ j, i + 1 ≤ j ∧ j ≤ i + 1 + n ∧ j ≤ t.length ∧ (k (.place t j)).isSome = true := by
        rw [Pattern.run, Cursor.isSome_step?_bind]
        constructor
        · rintro ⟨b, hb, -, hmore⟩
          have hlt : i < t.length := (List.getElem?_eq_some_iff.mp hb).1
          exact (ih hlt).mp (by simpa [Cursor.place] using hmore)
        · rintro ⟨j, hij, hmore⟩
          have hlt : i < t.length := by omega
          refine ⟨t[i], List.getElem?_eq_getElem hlt, rfl, ?_⟩
          simpa [Cursor.place] using (ih hlt).mpr ⟨j, hij, hmore⟩
      rw [upTo, if_neg Bool.false_ne_true, Option.isSome_or, Bool.or_eq_true, hagain]
      constructor
      · rintro (⟨j, hij, hji, hj, hk⟩ | hk)
        · exact ⟨j, by omega, by omega, hj, hk⟩
        · exact ⟨i, by omega, by omega, hi, hk⟩
      · rintro ⟨j, hij, hji, hj, hk⟩
        rcases Nat.eq_or_lt_of_le hij with rfl | hlt
        · exact .inr hk
        · exact .inl ⟨j, by omega, by omega, hj, hk⟩

/-- An anchor goes over nothing. -/
theorem isSome_anchor {here : Bool} {P : Prop} (h : here = true ↔ P) :
    (if here then k (.place t i) else none).isSome = true ↔ ∃ j, (j = i ∧ P) ∧ (k (.place t j)).isSome = true := by
  cases here <;> simp [← h]

/-- For an item, the matcher can go over every piece that the item matches, and over no other. -/
theorem isSome_run_item (hi : i ≤ t.length) (x : Item) : (x.pattern.run ignoreCase (.place t i) k).isSome = true ↔
    ∃ j, x.Spans ignoreCase t i j ∧ (k (.place t j)).isSome = true := by
  cases x with
  | lineStart => exact isSome_anchor (atLineStart_place hi)
  | lineEnd => exact isSome_anchor (atLineEnd_place hi)
  | any =>
      rw [Item.pattern, Pattern.run, Cursor.isSome_step?_bind]
      constructor
      · rintro ⟨b, hb, -, hk⟩
        exact ⟨i + 1, ⟨rfl, (List.getElem?_eq_some_iff.mp hb).1⟩, hk⟩
      · rintro ⟨j, ⟨rfl, hlt⟩, hk⟩
        exact ⟨t[i], List.getElem?_eq_getElem hlt, rfl, hk⟩
  | anyRun =>
      have hrun : (Pattern.iterate 0 none false .any).run ignoreCase (.place t i) k =
          upTo (Pattern.any.run ignoreCase) false (t.length - i + 1) (.place t i) k := by
        rw [← List.length_drop]
        rfl
      rw [Item.pattern, hrun, isSome_upTo_any hi]
      constructor
      · rintro ⟨j, hij, -, hj, hk⟩
        exact ⟨j, ⟨hij, hj⟩, hk⟩
      · rintro ⟨j, ⟨hij, hj⟩, hk⟩
        exact ⟨j, hij, by omega, hj, hk⟩
  | byte b =>
      rw [Item.pattern, Pattern.run, Cursor.isSome_step?_bind]
      constructor
      · rintro ⟨a, ha, hsame, hk⟩
        exact ⟨i + 1, ⟨rfl, by rw [ha]; exact hsame⟩, hk⟩
      · rintro ⟨j, ⟨rfl, hsame⟩, hk⟩
        obtain ⟨a, ha, hsame⟩ := (Option.any_eq_true _ _).mp hsame
        exact ⟨a, ha, hsame, hk⟩

theorem Item.Spans.le {x : Item} (h : x.Spans ignoreCase t i j) (hi : i ≤ t.length) : j ≤ t.length := by
  cases x with
  | lineStart | lineEnd => exact h.1 ▸ hi
  | any => exact h.1 ▸ h.2
  | anyRun => exact h.2
  | byte b =>
      obtain ⟨a, ha, -⟩ := (Option.any_eq_true _ _).mp h.2
      exact h.1 ▸ (List.getElem?_eq_some_iff.mp ha).1

theorem isSome_along (hi : i ≤ t.length) (xs : List Item) : (along ignoreCase xs k (.place t i)).isSome = true ↔
    ∃ j, Spans ignoreCase t j xs i ∧ (k (.place t j)).isSome = true := by
  induction xs generalizing i with
  | nil => exact ⟨fun hk => ⟨i, rfl, hk⟩, by rintro ⟨j, rfl, hk⟩; exact hk⟩
  | cons x xs ih =>
      refine (isSome_run_item hi x).trans ?_
      constructor
      · rintro ⟨l, hx, hmore⟩
        obtain ⟨j, hxs, hk⟩ := (ih (hx.le hi)).mp hmore
        exact ⟨j, ⟨l, hx, hxs⟩, hk⟩
      · rintro ⟨j, ⟨l, hx, hxs⟩, hk⟩
        exact ⟨l, hx, (ih (hx.le hi)).mpr ⟨j, hxs, hk⟩⟩

/-! ## The library -/

/-- The matcher is a library as documented. -/
theorem Engine.documented : Engine.library.Documented where
  accepts {xs s} ignoreCase h := by
    obtain ⟨p, hp, -⟩ := read?_spelled h
    show (if (Pattern.read? s).isSome = true then none else _) = none
    rw [hp]
    rfl
  finds {xs s t ignoreCase found} h hsearch := by
    obtain ⟨p, hp, hruns⟩ := read?_spelled h
    have hfound : found = p.foundIn ignoreCase t := by
      have hresult : (Pattern.read? s).any (·.foundIn ignoreCase t) = found := Except.ok.inj hsearch
      rw [← hresult, hp]
      rfl
    rw [hfound, Pattern.foundIn_iff]
    refine exists_congr fun i => and_congr_right fun hi => ?_
    rw [hruns, isSome_along hi]
    simp

end TreeQuery.Regex
