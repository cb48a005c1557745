import Mathlib.Data.List.Basic
import TreeQuery.Vocabulary

/-!
# Changing a vocabulary

The kinds of a tag depend on at most two entries: its own, and, if it has none, that of its stem. So a definition
reaches its own tag and the tags made from it by a suffix, and no other. A definition without kinds takes the entry
away; then the suffix of the tag decides, if it has one, as for any tag that was never defined. What a modifier stands
for is looked up once: an alias of a word that is an alias itself leads to that word, and not to what the word stands
for.

* `lookup_assign`, `lookup_define`: entries after a change;
* `HasStem`, `impliedKinds`, `classify_eq`, `classify_congr`: the entries that the kinds of a tag depend on;
* `Sound`, `Sound.edit`, `after`, `sound_after`: the vocabularies that changes lead to have no entries without kinds;
* `define_effective_iff`, `define_local`: what a definition changes, and what it leaves as it is;
* `Edit.meaning`, `canonical_edit`, `canonical_foldl_edit`: what a modifier stands for, change by change;
* `hasModifier_addAlias_iff`, `alias_effective_iff`: when a declared alias is found.
-/

namespace TreeQuery.Vocabulary

set_option autoImplicit false

variable {v w : Vocabulary} {tag u stem key : Text} {kinds : KindSet}

/-! ## Entries -/

theorem lookup_filter_ne {α : Type} (key k : Text) (entries : List (Text × α)) :
    (entries.filter (·.1 != key)).lookup k = if k = key then none else entries.lookup k := by
  induction entries with
  | nil => simp
  | cons e entries ih =>
      obtain ⟨other, a⟩ := e
      by_cases hother : other = key
      · rw [List.filter_cons_of_neg (by simp [hother]), ih, List.lookup_cons]
        grind
      · rw [List.filter_cons_of_pos (by simp [hother]), List.lookup_cons, List.lookup_cons, ih]
        grind

theorem lookup_assign {α : Type} (key k : Text) (a : α) (entries : List (Text × α)) :
    (assign key a entries).lookup k = if k = key then some a else entries.lookup k := by
  rw [assign, List.lookup_cons, lookup_filter_ne]
  grind

theorem lookup_define (v : Vocabulary) (tag : Text) (kinds : KindSet) (k : Text) :
    (v.define tag kinds).tags.lookup k =
      if k = tag.lowered then (if kinds = 0 then none else some kinds) else v.tags.lookup k := by
  unfold define
  split
  · exact lookup_filter_ne tag.lowered k v.tags
  · exact lookup_assign tag.lowered k kinds v.tags

/-! ## Suffixes -/

theorem beforeSuffix?_eq_some {suffix before : Text} :
    beforeSuffix? suffix tag = some before ↔ tag = before ++ suffix := by
  unfold beforeSuffix?
  split
  · rename_i hsuffix
    have htag := List.suffix_iff_eq_append.mp (List.isSuffixOf_iff_suffix.mp hsuffix)
    rw [Option.some.injEq]
    constructor
    · rintro rfl
      exact htag.symm
    · rintro rfl
      simp
  · rename_i hsuffix
    refine ⟨nofun, ?_⟩
    rintro rfl
    exact absurd (List.isSuffixOf_iff_suffix.mpr (List.suffix_append before suffix)) hsuffix

theorem beforeSuffix?_eq_none {suffix : Text} : beforeSuffix? suffix tag = none ↔ ¬ suffix <:+ tag := by
  rw [beforeSuffix?, ite_eq_right_iff, ← List.isSuffixOf_iff_suffix]
  exact imp_congr_right fun _ => by simp

/-- No tag ends in both suffixes. -/
theorem beforeSuffix?_statement_append (before : Text) :
    beforeSuffix? "statement" (before ++ "declaration") = none := by
  rw [beforeSuffix?_eq_none]
  intro hsuffix
  have hshort := List.suffix_of_suffix_length_le hsuffix (List.suffix_append before "declaration") (by decide)
  exact absurd (List.isSuffixOf_iff_suffix.mpr hshort) (by decide)

/-- The tag is the stem, a dash or an underscore, and one of the two suffixes. -/
def HasStem (tag stem : Text) : Prop :=
  ∃ separator suffix, (separator = 0x2d ∨ separator = 0x5f) ∧
    (suffix = ("statement" : Text) ∨ suffix = ("declaration" : Text)) ∧ tag = stem ++ separator :: suffix

theorem HasStem.ne (h : HasStem tag stem) : stem ≠ tag := by
  obtain ⟨separator, suffix, -, -, rfl⟩ := h
  simp

theorem stemKinds?_congr {before : Text}
    (h : ∀ stem separator, separator = 0x2d ∨ separator = 0x5f → before = stem ++ [separator] →
      v.tags.lookup stem = w.tags.lookup stem) :
    v.stemKinds? before = w.stemKinds? before := by
  unfold stemKinds?
  split
  · rename_i hbefore
    obtain ⟨separator, hlast, hseparator⟩ := (Option.any_eq_true _ _).mp hbefore.2
    refine h before.dropLast separator (by simpa using hseparator) ?_
    rw [List.dropLast_append_getLast? separator hlast]
  · rfl

theorem stemKinds?_append {separator : UInt8} (hseparator : separator = 0x2d ∨ separator = 0x5f) (hstem : stem ≠ []) :
    v.stemKinds? (stem ++ [separator]) = v.tags.lookup stem := by
  have hlength : 0 < stem.length := List.length_pos_iff.mpr hstem
  unfold stemKinds?
  rw [if_pos, List.dropLast_concat]
  constructor
  · rw [List.length_append]
    exact Nat.lt_add_of_pos_left hlength
  · simpa using hseparator

/-! ## Kinds -/

/-- The kinds of a lower-case tag that has no entry. -/
def impliedKinds (v : Vocabulary) (tag : Text) : KindSet :=
  match beforeSuffix? "statement" tag with
  | some before => (v.stemKinds? before).getD .statement
  | none =>
    match beforeSuffix? "declaration" tag with
    | some before => (v.stemKinds? before).getD .declaration
    | none => 0

theorem classify_eq (v : Vocabulary) (tag : Text) :
    v.classify tag = (v.tags.lookup tag.lowered).getD (v.impliedKinds tag.lowered) := by
  unfold classify
  cases v.tags.lookup tag.lowered with
  | none => rfl
  | some kinds => rfl

theorem impliedKinds_congr (h : ∀ stem, HasStem tag stem → v.tags.lookup stem = w.tags.lookup stem) :
    v.impliedKinds tag = w.impliedKinds tag := by
  have hstem : ∀ {before suffix : Text}, suffix = ("statement" : Text) ∨ suffix = ("declaration" : Text) →
      beforeSuffix? suffix tag = some before → v.stemKinds? before = w.stemKinds? before := by
    intro before suffix hsuffix hbefore
    refine stemKinds?_congr fun stem separator hseparator hstem => ?_
    refine h stem ⟨separator, suffix, hseparator, hsuffix, ?_⟩
    rw [beforeSuffix?_eq_some.mp hbefore, hstem, List.append_assoc, List.singleton_append]
  unfold impliedKinds
  cases hstatement : beforeSuffix? "statement" tag with
  | some before => simp only [hstem (.inl rfl) hstatement]
  | none =>
      cases hdeclaration : beforeSuffix? "declaration" tag with
      | some before => simp only [hstem (.inr rfl) hdeclaration]
      | none => rfl

/-- The kinds of a tag depend only on its own entry and on that of its stem. -/
theorem classify_congr (hself : v.tags.lookup u.lowered = w.tags.lookup u.lowered)
    (hstem : ∀ stem, HasStem u.lowered stem → v.tags.lookup stem = w.tags.lookup stem) :
    v.classify u = w.classify u := by
  rw [classify_eq, classify_eq, hself, impliedKinds_congr hstem]

/-- A tag without an entry follows its stem. -/
theorem impliedKinds_of_hasStem (h : HasStem tag stem) (hne : stem ≠ []) (hkinds : v.tags.lookup stem = some kinds) :
    v.impliedKinds tag = kinds := by
  obtain ⟨separator, suffix, hseparator, hsuffix, rfl⟩ := h
  have hbefore : beforeSuffix? suffix (stem ++ separator :: suffix) = some (stem ++ [separator]) := by
    rw [beforeSuffix?_eq_some, List.append_assoc, List.singleton_append]
  have hstem : v.stemKinds? (stem ++ [separator]) = some kinds := by rw [stemKinds?_append hseparator hne, hkinds]
  unfold impliedKinds
  rcases hsuffix with rfl | rfl
  · simp only [hbefore, hstem, Option.getD_some]
  · have hnone : beforeSuffix? "statement" (stem ++ separator :: ("declaration" : Text)) = none := by
      rw [List.append_cons]
      exact beforeSuffix?_statement_append _
    simp only [hnone, hbefore, hstem, Option.getD_some]

/-! ## Runs of changes -/

/-- No entry is without kinds. -/
def Sound (v : Vocabulary) : Prop := ∀ e ∈ v.tags, e.2 ≠ 0

theorem Sound.lookup_ne_zero (h : v.Sound) (hkinds : v.tags.lookup key = some kinds) : kinds ≠ 0 := by
  obtain ⟨before, rest, htags, -⟩ := List.lookup_eq_some_iff.mp hkinds
  refine h (key, kinds) ?_
  rw [htags]
  simp

theorem Sound.stemKinds?_getD_ne_zero (h : v.Sound) (before : Text) (hkinds : kinds ≠ 0) :
    (v.stemKinds? before).getD kinds ≠ 0 := by
  unfold stemKinds?
  split
  · cases hlookup : v.tags.lookup before.dropLast with
    | none => exact hkinds
    | some found => exact h.lookup_ne_zero hlookup
  · exact hkinds

theorem Sound.impliedKinds_eq_zero_iff (h : v.Sound) :
    v.impliedKinds tag = 0 ↔ ¬ ("statement" : Text) <:+ tag ∧ ¬ ("declaration" : Text) <:+ tag := by
  rw [← beforeSuffix?_eq_none, ← beforeSuffix?_eq_none]
  unfold impliedKinds
  cases beforeSuffix? "statement" tag with
  | some before => simpa using h.stemKinds?_getD_ne_zero before (by decide)
  | none =>
      cases beforeSuffix? "declaration" tag with
      | some before => simpa using h.stemKinds?_getD_ne_zero before (by decide)
      | none => simp

theorem Sound.edit (h : v.Sound) (e : Edit) : (v.edit e).Sound := by
  cases e with
  | define tag kinds =>
      have hrest : ∀ e ∈ v.tags.filter (·.1 != tag.lowered), e.2 ≠ 0 := fun e he => h e (List.mem_of_mem_filter he)
      show ∀ e ∈ (v.define tag kinds).tags, e.2 ≠ 0
      unfold define
      split
      · exact hrest
      · rename_i hkinds
        exact List.forall_mem_cons.mpr ⟨hkinds, hrest⟩
  | addAlias spelling modifier => exact h
  | clear => exact nofun

/-- The vocabulary that changes of the default one lead to. -/
def after (edits : List Edit) : Vocabulary := edits.foldl edit default

theorem sound_foldl_edit (edits : List Edit) (h : v.Sound) : (edits.foldl edit v).Sound := by
  induction edits generalizing v with
  | nil => exact h
  | cons e edits ih => exact ih (h.edit e)

theorem sound_after (edits : List Edit) : (after edits).Sound := by
  refine sound_foldl_edit edits ?_
  unfold Sound
  decide

/-! ## Definitions -/

/-- A definition settles the kinds of its tag, unless it takes the entry away. -/
theorem classify_define_self (hu : u.sameFolded tag = true) :
    (v.define tag kinds).classify u = if kinds = 0 then v.impliedKinds tag.lowered else kinds := by
  have hu : u.lowered = tag.lowered := eq_of_beq hu
  rw [classify_eq, lookup_define, hu, if_pos rfl]
  split
  · -- The stem is another tag, so that its entry stays.
    refine impliedKinds_congr fun stem hstem => ?_
    rw [lookup_define, if_neg hstem.ne]
  · rfl

/-- **However the vocabulary has come about, a tag has the kinds that were defined for it last, in whatever case it is
written, with one exception: if no kinds were defined for a tag that ends in one of the suffixes, the suffix still gives
it some.** -/
theorem define_effective_iff (edits : List Edit) (tag : Text) (kinds : KindSet) (hu : u.sameFolded tag = true) :
    ((after edits).define tag kinds).classify u = kinds ↔
      (kinds = 0 → ¬ ("statement" : Text) <:+ tag.lowered ∧ ¬ ("declaration" : Text) <:+ tag.lowered) := by
  rw [classify_define_self hu, ← (sound_after edits).impliedKinds_eq_zero_iff]
  split
  · rename_i hzero
    rw [hzero]
    exact ⟨fun h _ => h, fun h => h rfl⟩
  · rename_i hkinds
    exact ⟨fun _ hzero => absurd hzero hkinds, fun _ => rfl⟩

/-- A tag that a first definition made a block and a second one takes back. -/
theorem define_effective_region :
    Text.sameFolded "REGION" "Region" = true ∧
      ((after [.define "region" .block]).define "Region" 0).classify "REGION" = 0 := by
  refine ⟨by decide, ?_⟩
  refine (define_effective_iff [.define "region" .block] "Region" 0 (by decide)).mpr fun _ => ?_
  rw [← List.isSuffixOf_iff_suffix, ← List.isSuffixOf_iff_suffix]
  decide

/-- Local declarations are statements; without their entry they are declarations, by the suffix. -/
theorem classify_removed_localDeclaration :
    (after []).classify "local-declaration" = .statement ∧
      ((after []).define "local-declaration" 0).classify "local-declaration" = .declaration := by
  decide

theorem canonical_define (v : Vocabulary) (tag : Text) (kinds : KindSet) (word : Text) :
    (v.define tag kinds).canonical word = v.canonical word := by
  unfold define
  split <;> rfl

/-- **A definition leaves the kinds of all tags as they are except for the tag itself and for the tags made from it by a
dash or an underscore and a suffix; of these, the ones without an entry of their own take over what is defined. Aliases
change no kinds, and definitions do not change what modifiers stand for.** -/
theorem define_local (v : Vocabulary) :
    (∀ (tag u : Text) (kinds : KindSet), u.lowered ≠ tag.lowered → ¬ HasStem u.lowered tag.lowered →
      (v.define tag kinds).classify u = v.classify u) ∧
    (∀ (tag u : Text) (kinds : KindSet), tag ≠ [] → kinds ≠ 0 → HasStem u.lowered tag.lowered →
      v.tags.lookup u.lowered = none → (v.define tag kinds).classify u = kinds) ∧
    (∀ spelling modifier u : Text, (v.addAlias spelling modifier).classify u = v.classify u) ∧
    ∀ (tag : Text) (kinds : KindSet) (word : Text), (v.define tag kinds).canonical word = v.canonical word := by
  refine ⟨fun tag u kinds hself hstem => ?_, fun tag u kinds htag hkinds hstem hnone => ?_, fun _ _ _ => rfl,
    canonical_define v⟩
  · refine classify_congr ?_ fun stem hu => ?_
    · rw [lookup_define, if_neg hself]
    · have hne : stem ≠ tag.lowered := fun h => hstem (h ▸ hu)
      rw [lookup_define, if_neg hne]
  · have hlowered : tag.lowered ≠ [] := fun h => htag (List.map_eq_nil_iff.mp h)
    have hentry : (v.define tag kinds).tags.lookup tag.lowered = some kinds := by
      rw [lookup_define, if_pos rfl, if_neg hkinds]
    rw [classify_eq, lookup_define, if_neg hstem.ne.symm, hnone, Option.getD_none]
    exact impliedKinds_of_hasStem hstem hlowered hentry

/-- To make conditions blocks reaches their statements too, but not a word that merely ends alike. -/
theorem define_local_condition :
    (default.define "if" .block).classify "ifstatement" = default.classify "ifstatement" ∧
      (default.define "if" .block).classify "If_Statement" = .block := by
  obtain ⟨hlocal, hstem, -, -⟩ := define_local default
  constructor
  · refine hlocal "if" "ifstatement" .block (by decide) ?_
    rintro ⟨separator, suffix, rfl | rfl, rfl | rfl, h⟩ <;> exact absurd h (by decide)
  · refine hstem "if" "If_Statement" .block (by decide) (by decide) ⟨0x5f, "statement", .inr rfl, .inl rfl, ?_⟩ ?_
    · decide
    · decide

/-! ## Aliases -/

/-- What a word stands for after a change, if it stood for `before`. -/
def Edit.meaning (word before : Text) : Edit → Text
  | .define _ _ => before
  | .addAlias spelling modifier => if word.sameFolded spelling then modifier.lowered else before
  | .clear => word.lowered

theorem canonical_addAlias (v : Vocabulary) (spelling modifier word : Text) :
    (v.addAlias spelling modifier).canonical word =
      if word.sameFolded spelling then modifier.lowered else v.canonical word := by
  unfold canonical addAlias Text.sameFolded
  rw [lookup_assign]
  simp only [beq_iff_eq]
  split <;> rfl

theorem canonical_edit (v : Vocabulary) (e : Edit) (word : Text) :
    (v.edit e).canonical word = e.meaning word (v.canonical word) := by
  cases e with
  | define tag kinds => exact canonical_define v tag kinds word
  | addAlias spelling modifier => exact canonical_addAlias v spelling modifier word
  | clear => rfl

theorem canonical_foldl_edit (edits : List Edit) (v : Vocabulary) (word : Text) :
    (edits.foldl edit v).canonical word = edits.foldl (Edit.meaning word) (v.canonical word) := by
  induction edits generalizing v with
  | nil => rfl
  | cons e edits ih => rw [List.foldl_cons, List.foldl_cons, ih, canonical_edit]

/-- An alias is found wherever it occurs if the modifier that it is an alias of stands for itself. -/
theorem hasModifier_addAlias_iff (v : Vocabulary) (spelling modifier : Text) :
    (∀ modifiers : List Text, (∃ word ∈ modifiers, word.sameFolded spelling = true) →
      (v.addAlias spelling modifier).hasModifier modifiers modifier = true) ↔
    modifier.sameFolded spelling = true ∨ v.canonical modifier = modifier.lowered := by
  have hspelling : ∀ {word : Text}, word.sameFolded spelling = true →
      (v.addAlias spelling modifier).canonical word = modifier.lowered := by
    intro word hword
    rw [canonical_addAlias, if_pos hword]
  have hmodifier : (v.addAlias spelling modifier).canonical modifier = modifier.lowered ↔
      modifier.sameFolded spelling = true ∨ v.canonical modifier = modifier.lowered := by
    rw [canonical_addAlias]
    split
    · rename_i hsame
      exact ⟨fun _ => .inl hsame, fun _ => rfl⟩
    · rename_i hother
      exact ⟨.inr, fun h => h.resolve_left hother⟩
  rw [← hmodifier]
  constructor
  · intro h
    -- With the alias as its only modifier, a node has nothing else to be found by.
    have hself : spelling.sameFolded spelling = true := beq_self_eq_true _
    have hfound := h [spelling] ⟨spelling, List.mem_singleton_self _, hself⟩
    rw [hasModifier, List.any_cons, List.any_nil, Bool.or_false, beq_iff_eq, hspelling hself] at hfound
    exact hfound.symm
  · rintro h modifiers ⟨word, hword, hsame⟩
    rw [hasModifier, List.any_eq_true]
    refine ⟨word, hword, beq_iff_eq.mpr ?_⟩
    rw [h, hspelling hsame]

/-- **However the vocabulary has come about, declaring an alias makes the modifier found on all nodes that have the
alias, in whatever case it is written, exactly if the two are the same word or the modifier stands for itself. The
latter depends on the last change that concerns the modifier, where it was made an alias or everything was forgotten,
and on the default vocabulary if there is none.** -/
theorem alias_effective_iff (edits : List Edit) (spelling modifier : Text) :
    (∀ modifiers : List Text, (∃ word ∈ modifiers, word.sameFolded spelling = true) →
      ((after edits).addAlias spelling modifier).hasModifier modifiers modifier = true) ↔
    modifier.sameFolded spelling = true ∨
      edits.foldl (Edit.meaning modifier) (default.canonical modifier) = modifier.lowered := by
  rw [hasModifier_addAlias_iff, after, canonical_foldl_edit]

/-- Clearing the vocabulary makes `sealed` a modifier in its own right again. -/
theorem alias_effective_sealed :
    ((after [.addAlias "Sealed" "final", .define "partial" .block, .clear]).addAlias "Partial" "sealed").hasModifier
      ["public", "PARTIAL"] "sealed" = true := by
  refine (alias_effective_iff [.addAlias "Sealed" "final", .define "partial" .block, .clear] "Partial" "sealed").mpr
    (.inr ?_) _ ⟨"PARTIAL", ?_, ?_⟩
  · decide
  · decide
  · decide

/-- As `shared` is an alias of `static`, an alias of `shared` is found as neither. And once `static` is made an alias of
`shared` in its turn, it is no longer found as that. -/
theorem hasModifier_alias_of_alias :
    ((after []).addAlias "my" "shared").hasModifier ["my"] "shared" = false ∧
      ((after []).addAlias "my" "shared").hasModifier ["my"] "static" = false ∧
      (after []).hasModifier ["static"] "shared" = true ∧
      ((after []).addAlias "static" "shared").hasModifier ["static"] "shared" = false := by
  decide

end TreeQuery.Vocabulary
