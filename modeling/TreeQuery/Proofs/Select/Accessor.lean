import TreeQuery.Proofs.Tree.Relation
import TreeQuery.Regex.Engine
import TreeQuery.Select.Filter

/-!
# Accessors of properties

The accessors of a property are its children and what its lists of accessors group. One of them is the getter or the
setter by its tag, or else by its name. The flags `has-getter` and `has-setter` go by tags in both places, but by names
only among the children of the property itself, since a list is searched for tags alone. So an accessor that is one by
its name is no longer found once it is grouped.

* `IsAccessorOf`, `IsWanted`, `IsSeen`: the accessors of a node, the wanted ones, and those that a flag can find;
* `isAccessor_iff`, `hasAccessor_iff`: the search in these words;
* `AsksFor`, `holds_flag_of_asksFor`: the two flags;
* `accessorFlag_iff`, `groupedGetter_unseen`: what the flags say, and an accessor that they miss.
-/

namespace TreeQuery

set_option autoImplicit false

/-- A text is the same as only one of two that differ in more than case. -/
theorem Text.not_sameFolded_of_ne {s u v : Text} (hsu : s.sameFolded u = true) (huv : u.lowered ≠ v.lowered) :
    s.sameFolded v = false := by
  have hsu : s.lowered = u.lowered := eq_of_beq hsu
  unfold sameFolded
  rw [hsu]
  exact beq_eq_false_iff_ne.mpr huv

namespace Semantics

open Tree.Node

variable {t : Tree} {n c a : t.Node} {word which : Text}

/-! ## The search -/

/-- `a` is a child of `n`, or a child of one of the children that are lists of accessors. -/
def IsAccessorOf (a n : t.Node) : Prop :=
  n.IsParentOf a ∨ ∃ g, n.IsParentOf g ∧ g.tag.sameFolded "accessor-list" = true ∧ g.IsParentOf a

/-- The node is the accessor `which`: its tag says so, or it is an accessor that is called so. -/
def IsWanted (which : Text) (a : t.Node) : Prop :=
  a.tag.sameFolded which = true ∨
    a.tag.sameFolded "accessor" = true ∧ ∃ name, a.name = some name ∧ name.sameFolded which = true

/-- The accessor of `n` stands outside of lists, or its tag says what it is. -/
def IsSeen (which : Text) (a n : t.Node) : Prop := n.IsParentOf a ∨ a.tag.sameFolded which = true

theorem isAccessor_iff : isAccessor which c = true ↔ IsWanted which c ∨
    c.tag.sameFolded "accessor-list" = true ∧ ∃ a, c.IsParentOf a ∧ a.tag.sameFolded which = true := by
  unfold isAccessor IsWanted
  cases htag : c.tag.sameFolded "accessor" with
  | true =>
      rw [Text.not_sameFolded_of_ne htag (v := "accessor-list") (by decide)]
      simp [Option.any_eq_true]
  | false => simp [mem_children]

theorem hasAccessor_iff : hasAccessor which n = true ↔ n.tag.sameFolded "property" = true ∧
    ∃ a, IsAccessorOf a n ∧ IsWanted which a ∧ IsSeen which a n := by
  unfold hasAccessor
  rw [Bool.and_eq_true, List.any_eq_true]
  refine and_congr_right fun _ => ?_
  constructor
  · rintro ⟨c, hc, haccessor⟩
    have hc : n.IsParentOf c := mem_children.mp hc
    rcases isAccessor_iff.mp haccessor with hwanted | ⟨hlist, a, ha, htag⟩
    · exact ⟨c, .inl hc, hwanted, .inl hc⟩
    · exact ⟨a, .inr ⟨c, hc, hlist, ha⟩, .inl htag, .inr htag⟩
  · rintro ⟨a, ha, hwanted, hseen⟩
    rcases ha with ha | ⟨g, hg, hlist, ha⟩
    · exact ⟨a, mem_children.mpr ha, isAccessor_iff.mpr (.inl hwanted)⟩
    · rcases hseen with hchild | htag
      · exact ⟨a, mem_children.mpr hchild, isAccessor_iff.mpr (.inl hwanted)⟩
      · exact ⟨g, mem_children.mpr hg, isAccessor_iff.mpr (.inr ⟨hlist, a, ha, htag⟩)⟩

/-! ## The flags -/

/-- The word is the flag that asks for the accessor `which`. -/
def AsksFor (word which : Text) : Prop :=
  word.sameFolded "has-getter" = true ∧ which = "get" ∨ word.sameFolded "has-setter" = true ∧ which = "set"

theorem holds_flag_of_asksFor [Regex.Library] (m : Semantics t) (n : t.Node) (hword : AsksFor word which) :
    m.holds (.flag word) n = .ok (hasAccessor which n) := by
  rw [holds, flagHolds]
  rcases hword with ⟨hword, rfl⟩ | ⟨hword, rfl⟩
  · rw [if_pos hword]
  · rw [Text.not_sameFolded_of_ne hword (v := "has-getter") (by decide), if_neg Bool.false_ne_true, if_pos hword]

/-- **The flag `has-getter` or `has-setter` always has an answer, and this is yes exactly for a property with a wanted
accessor that is a child of the property itself or has the right tag. So two properties whose wanted accessors carry the
same labels get the same answer, whichever of the accessors are grouped in lists, as long as none that is grouped is
the wanted one by its name alone.** -/
theorem accessorFlag_iff [Regex.Library] (m : Semantics t) (n : t.Node) (hword : AsksFor word which) :
    (∃ answer, m.holds (.flag word) n = .ok answer ∧ (answer = true ↔ n.tag.sameFolded "property" = true ∧
      ∃ a, IsAccessorOf a n ∧ IsWanted which a ∧ IsSeen which a n)) ∧
    ∀ {t' : Tree} (m' : Semantics t') (n' : t'.Node),
      n.tag.sameFolded "property" = n'.tag.sameFolded "property" →
      (∀ l : Label, (∃ a, IsAccessorOf a n ∧ IsWanted which a ∧ a.label = l) ↔
        ∃ a, IsAccessorOf a n' ∧ IsWanted which a ∧ a.label = l) →
      (∀ a, IsAccessorOf a n → IsWanted which a → IsSeen which a n) →
      (∀ a, IsAccessorOf a n' → IsWanted which a → IsSeen which a n') →
      m.holds (.flag word) n = m'.holds (.flag word) n' := by
  refine ⟨⟨_, holds_flag_of_asksFor m n hword, hasAccessor_iff⟩, fun m' n' hproperty hsame hseen hseen' => ?_⟩
  rw [holds_flag_of_asksFor m n hword, holds_flag_of_asksFor m' n' hword]
  refine congrArg Except.ok (Bool.eq_iff_iff.mpr ?_)
  rw [hasAccessor_iff, hasAccessor_iff, hproperty]
  refine and_congr_right fun _ => ?_
  constructor
  · rintro ⟨a, ha, hwanted, -⟩
    obtain ⟨a', ha', hwanted', -⟩ := (hsame a.label).mp ⟨a, ha, hwanted, rfl⟩
    exact ⟨a', ha', hwanted', hseen' a' ha' hwanted'⟩
  · rintro ⟨a', ha', hwanted', -⟩
    obtain ⟨a, ha, hwanted, -⟩ := (hsame a'.label).mpr ⟨a', ha', hwanted', rfl⟩
    exact ⟨a, ha, hwanted, hseen a ha hwanted⟩

open scoped Regex.Engine

/-- A property whose setter is grouped. -/
def groupedSetter : Tree :=
  .node { tag := "property" } [.node { tag := "accessor-list" } [.node { tag := "set" } []]]

/-- The same property without the list. -/
def plainSetter : Tree := .node { tag := "Property" } [.node { tag := "set" } []]

/-- A setter with the tag `set` is found in a list as well as outside. -/
theorem accessorFlag_iff_setter :
    AsksFor "Has-Setter" "set" ∧ (∃ a, IsAccessorOf a (.top groupedSetter) ∧ IsWanted "set" a ∧
      IsSeen "set" a (.top groupedSetter)) ∧
    holds (t := groupedSetter) ⟨.default, none⟩ (.flag "Has-Setter") (.top _) =
      holds (t := plainSetter) ⟨.empty, none⟩ (.flag "Has-Setter") (.top _) := by
  have hword : AsksFor "Has-Setter" "set" := .inr ⟨by decide, rfl⟩
  have hyes : holds (t := groupedSetter) ⟨.default, none⟩ (.flag "Has-Setter") (.top _) = .ok true := rfl
  obtain ⟨⟨answer, hanswer, hiff⟩, hsame⟩ :=
    accessorFlag_iff (t := groupedSetter) ⟨.default, none⟩ (.top _) hword
  obtain rfl : true = answer := Except.ok.inj (hyes.symm.trans hanswer)
  have hgrouped : ∀ a, IsAccessorOf a (.top groupedSetter) ∧ IsWanted "set" a ↔ a = ⟨[0, 0], rfl⟩ := by
    intro a
    constructor
    · rintro ⟨ha | ⟨g, hg, -, ha⟩, hwanted⟩
      · obtain rfl : a = ⟨[0], rfl⟩ := List.mem_singleton.mp (mem_children.mpr ha)
        exact absurd hwanted (by rintro (h | ⟨h, -⟩) <;> exact absurd h (by decide))
      · obtain rfl : g = ⟨[0], rfl⟩ := List.mem_singleton.mp (mem_children.mpr hg)
        exact List.mem_singleton.mp (mem_children.mpr ha)
    · rintro rfl
      exact ⟨.inr ⟨⟨[0], rfl⟩, ⟨0, rfl⟩, by decide, ⟨0, rfl⟩⟩, .inl (by decide)⟩
  have hplain : ∀ a, IsAccessorOf a (.top plainSetter) ∧ IsWanted "set" a ↔ a = ⟨[0], rfl⟩ := by
    intro a
    constructor
    · rintro ⟨ha | ⟨g, hg, hlist, -⟩, -⟩
      · exact List.mem_singleton.mp (mem_children.mpr ha)
      · obtain rfl : g = ⟨[0], rfl⟩ := List.mem_singleton.mp (mem_children.mpr hg)
        exact absurd hlist (by decide)
    · rintro rfl
      exact ⟨.inl ⟨0, rfl⟩, .inl (by decide)⟩
  refine ⟨hword, (hiff.mp rfl).2, hsame ⟨.empty, none⟩ (.top plainSetter) (by decide) ?_ ?_ ?_⟩
  · intro l
    have hlabel : label (⟨[0, 0], rfl⟩ : groupedSetter.Node) = label (⟨[0], rfl⟩ : plainSetter.Node) := by decide
    simp only [← and_assoc, hgrouped, hplain, exists_eq_left, hlabel]
  · intro a ha hwanted
    obtain rfl := (hgrouped a).mp ⟨ha, hwanted⟩
    exact .inr (by decide)
  · intro a ha hwanted
    obtain rfl := (hplain a).mp ⟨ha, hwanted⟩
    exact .inr (by decide)

/-- A property whose getter is an accessor with a name, and grouped. -/
def groupedGetter : Tree :=
  .node { tag := "property" } [.node { tag := "accessor-list" } [.node { tag := "accessor", name := some "get" } []]]

/-- The same property without the list. -/
def plainGetter : Tree := .node { tag := "property" } [.node { tag := "accessor", name := some "get" } []]

/-- A getter that is one by its name is among the accessors of the property, but it is found only outside of lists. -/
theorem groupedGetter_unseen :
    tag (.top groupedGetter) = "property" ∧ (∃ a, IsAccessorOf a (.top groupedGetter) ∧ IsWanted "get" a) ∧
    holds (t := groupedGetter) ⟨.default, none⟩ (.flag "has-getter") (.top _) = .ok false ∧
    holds (t := plainGetter) ⟨.default, none⟩ (.flag "has-getter") (.top _) = .ok true := by
  refine ⟨rfl, ⟨⟨[0, 0], rfl⟩, ?_, ?_⟩, rfl, rfl⟩
  · exact .inr ⟨⟨[0], rfl⟩, ⟨0, rfl⟩, by decide, ⟨0, rfl⟩⟩
  · exact .inr ⟨by decide, "get", rfl, by decide⟩

end Semantics

end TreeQuery
