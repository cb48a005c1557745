import TreeQuery.Proofs.Naming.Stability
import TreeQuery.Proofs.Text.Numeral
import TreeQuery.Proofs.Tree.Ascent
import TreeQuery.Proofs.Tree.Order

/-!
# Stable paths segment by segment

A stable path lists what the nodes above a node contribute, and then the segment of the node itself. At a boundary that
contributes a segment itself, the walk up from the node goes on as the walk from the boundary does, so that the path is
the path of the boundary followed by the rest. Children of one node have the same walk above them; without names, they
differ in their last segments, because the last opening bracket of such a segment parts the tag from the number.

* `isBody_iff`: the bodies that paths pass over;
* `enclosing_eq`, `path_append`: a path in two parts;
* `path_eq_append`, `segment_of_name_eq_none`: a path by its last segment, and that of a node without a name;
* `ChildAt.sameTagIndex_lt`: siblings with the same tag are numbered in their order;
* `path_ne_of_siblings`: siblings without names have different paths.
-/

namespace TreeQuery

set_option autoImplicit false

open Tree.Node

/-! ## Paths in two parts -/

namespace Naming

variable {g : Naming} {t : Tree} {b n : t.Node}

/-- A body is a block, and no other child of its parent is one. -/
theorem isBody_iff : g.isBody n = true ↔ g.vocabulary.isBlock n.tag = true ∧
    ∃ p, IsParentOf p n ∧ ∀ m, IsParentOf p m → g.vocabulary.isBlock m.tag = true → m = n := by
  unfold isBody
  rw [Bool.and_eq_true, Option.any_eq_true]
  refine and_congr_right fun hn => exists_congr fun p => ?_
  rw [parent?_eq_some, beq_iff_eq, List.countP_eq_length_filter]
  refine and_congr_right fun hp => ?_
  have hmem : ∀ m, m ∈ p.children.filter (g.vocabulary.isBlock ·.tag) ↔
      IsParentOf p m ∧ g.vocabulary.isBlock m.tag = true := by
    intro m
    rw [List.mem_filter, mem_children]
  constructor
  · intro hlength m hm hblock
    obtain ⟨k, hk⟩ := List.length_eq_one_iff.mp hlength
    have hsame : ∀ m, IsParentOf p m ∧ g.vocabulary.isBlock m.tag = true → m = k := by
      intro m hm
      rw [← hmem, hk] at hm
      exact List.mem_singleton.mp hm
    exact (hsame m ⟨hm, hblock⟩).trans (hsame n ⟨hp, hn⟩).symm
  · intro honly
    have hnodup : (p.children.filter (g.vocabulary.isBlock ·.tag)).Nodup :=
      (p.children_increasing.imp Before.ne).filter _
    have hperm : (p.children.filter (g.vocabulary.isBlock ·.tag)).Perm [n] := by
      refine (List.perm_ext_iff_of_nodup hnodup (List.nodup_singleton n)).mpr fun m => ?_
      rw [hmem, List.mem_singleton]
      exact ⟨fun hm => honly m hm.1 hm.2, fun h => h ▸ ⟨hp, hn⟩⟩
    exact hperm.length_eq

theorem enclosing_some (n b : t.Node) : enclosing n (some b) = n.ancestors.takeWhile (· != b) := rfl

/-- A walk that passes `b` goes on above it as the walk from `b` does. -/
theorem enclosing_eq {c : Option t.Node} (hb : Relation.TransGen IsParentOf b n)
    (hc : ∀ a ∈ c, Relation.TransGen IsParentOf a b ∨ ¬ Relation.TransGen IsParentOf a n) :
    enclosing n c = enclosing n (some b) ++ b :: enclosing b c := by
  rw [enclosing_some]
  refine takeWhile_ancestors_eq hb fun d hbd hdn => bne_iff_ne.mpr fun hd => ?_
  rcases hc d hd.symm with hdb | hdn'
  · exact not_below_of_strictlyAbove hdb hbd
  · exact hdn' hdn

/-- **The path of a node is the path of a node above it, followed by its own path below that one, if the node above is
recognized and is not the only block among the children of its parent. This holds for paths without a boundary, for
those below a boundary that lies further up, and for a boundary that does not enclose the node.** -/
theorem path_append (g : Naming) {b n : t.Node} (hb : Relation.TransGen IsParentOf b n)
    (hrecognized : g.vocabulary.isRecognized b.tag = true)
    (hbody : ¬ (g.vocabulary.isBlock b.tag = true ∧
      ∃ p, IsParentOf p b ∧ ∀ m, IsParentOf p m → g.vocabulary.isBlock m.tag = true → m = b))
    (c : Option t.Node)
    (hc : ∀ a ∈ c, Relation.TransGen IsParentOf a b ∨ ¬ Relation.TransGen IsParentOf a n) :
    g.path n c = g.path b c ++ g.path n (some b) := by
  have hcontributes : g.contributes b = true := by
    rw [← isBody_iff, Bool.not_eq_true] at hbody
    rw [contributes, hrecognized, hbody]
    rfl
  rw [path_eq, path_eq, path_eq, enclosing_eq hb hc, List.filter_append, List.filter_cons_of_pos hcontributes]
  -- From the top down, both sides are the segments above `b`, that of `b`, those between, and that of `n`.
  simp

/-- A method with two blocks, the second of which has a condition in a region. -/
def secondBlock : Tree :=
  .node { tag := "class", name := some "A" } [.node { tag := "method", name := some "M" }
    [.node { tag := "block" } [], .node { tag := "block" } [.node { tag := "region" }
      [.node { tag := "if" } [.node { tag := "block" } [.node { tag := "return" } []]]]]]]

/-- The second block is a part of the way; the region and the body of the condition are passed over. -/
theorem path_append_second_block :
    path ⟨.default, .compact⟩ (⟨[0, 1, 0, 0, 0, 0], rfl⟩ : secondBlock.Node) (some (.top _)) =
      "/M/block[2]" ++ "/if[1]/return[1]" := by
  have hbody : isBody ⟨.default, .compact⟩ (⟨[0, 1], rfl⟩ : secondBlock.Node) = false := by decide
  refine (path_append ⟨.default, .compact⟩ (b := ⟨[0, 1], rfl⟩) (mem_ancestors.mp (by decide)) (by decide)
    (by rw [← isBody_iff, hbody]; exact Bool.false_ne_true) (some (.top _)) ?_).trans (by decide +kernel)
  intro a ha
  obtain rfl := Option.some.inj ha
  exact .inl (mem_ancestors.mp (by decide))

/-- A body has a segment in its own path only. -/
example : path ⟨.default, .compact⟩ (⟨[0, 1, 0, 0, 0], rfl⟩ : secondBlock.Node) none = "/A/M/block[2]/if[1]/block[1]" ∧
    path ⟨.default, .compact⟩ (⟨[0, 1, 0, 0, 0, 0], rfl⟩ : secondBlock.Node) none =
      "/A/M/block[2]/if[1]/return[1]" := by decide +kernel

end Naming

/-! ## Siblings -/

namespace Tree.Node

variable {t : Tree} {p a b : t.Node} {i j : Nat}

/-- Siblings with the same tag are numbered in their order. -/
theorem ChildAt.sameTagIndex_lt (ha : p.ChildAt i a) (hb : p.ChildAt j b) (htag : a.tag = b.tag) (hij : i < j) :
    a.sameTagIndex < b.sameTagIndex := by
  have hat : p.sub.tags[i]? = some b.tag := by
    rw [tags, List.getElem?_map, ha.sub_eq, ← htag]
    rfl
  have htake : p.sub.tags.take (i + 1) = p.sub.tags.take i ++ [b.tag] := by
    rw [List.take_add_one, hat]
    rfl
  have hcount : (p.sub.tags.take (i + 1)).count b.tag ≤ (p.sub.tags.take j).count b.tag :=
    (List.take_sublist_take_left hij).count_le b.tag
  rw [htake, List.count_append, List.count_singleton_self] at hcount
  rw [ha.sameTagIndex, hb.sameTagIndex, htag]
  omega

end Tree.Node

section Marks

variable {mark : UInt8} {s s' u rest rest' : Text}

theorem eq_nil_of_cons_eq_append (hrest : mark ∉ rest) (h : mark :: rest = u ++ mark :: rest') : u = [] := by
  cases u with
  | nil => rfl
  | cons b u =>
      have hrest' : rest = u ++ mark :: rest' := (List.cons.inj h).2
      rw [hrest'] at hrest
      exact absurd (List.mem_append_right u List.mem_cons_self) hrest

/-- The last mark in a text parts it in one way only. -/
theorem append_mark_inj (hrest : mark ∉ rest) (hrest' : mark ∉ rest') (h : s ++ mark :: rest = s' ++ mark :: rest') :
    s = s' ∧ rest = rest' := by
  rcases List.append_eq_append_iff.mp h with ⟨u, rfl, hu⟩ | ⟨u, rfl, hu⟩
  · obtain rfl := eq_nil_of_cons_eq_append hrest hu
    exact ⟨(List.append_nil s).symm, (List.cons.inj hu).2⟩
  · obtain rfl := eq_nil_of_cons_eq_append hrest' hu
    exact ⟨List.append_nil s', (List.cons.inj hu).2.symm⟩

end Marks

namespace Naming

variable {g : Naming} {t : Tree} {p a b n : t.Node} {i j : Nat}

/-- A path ends with the segment of the node. -/
theorem path_eq_append (n : t.Node) (c : Option t.Node) :
    g.path n c =
      ((enclosing n c).filter g.contributes).reverse.flatMap (0x2f :: g.segment ·) ++ 0x2f :: g.segment n := by
  rw [path, List.reverse_cons, List.flatMap_append, List.flatMap_singleton]

theorem enclosing_eq_of_siblings (ha : p.ChildAt i a) (hb : p.ChildAt j b) (c : Option t.Node) :
    enclosing a c = enclosing b c := by
  rw [enclosing, enclosing, ha.ancestors, hb.ancestors]

theorem segment_of_name_eq_none (h : n.name = none) :
    g.segment n = n.tag ++ 0x5b :: (Text.ofNat n.sameTagIndex ++ [0x5d]) := by
  rw [segment, h, List.append_assoc, List.append_assoc]
  rfl

/-- The segment of a node without a name shows its tag and its number. -/
theorem tag_eq_of_segment_eq (ha : a.name = none) (hb : b.name = none) (h : g.segment a = g.segment b) :
    a.tag = b.tag ∧ a.sameTagIndex = b.sameTagIndex := by
  have hmark : ∀ k, 0x5b ∉ Text.ofNat k ++ [0x5d] := by
    intro k hk
    rcases List.mem_append.mp hk with hdigit | hclose
    · exact absurd (Text.isDigit_of_mem_ofNat hdigit) (by decide)
    · exact absurd hclose (by decide)
  rw [segment_of_name_eq_none ha, segment_of_name_eq_none hb] at h
  obtain ⟨htag, hnumber⟩ := append_mark_inj (hmark _) (hmark _) h
  exact ⟨htag, Text.ofNat_injective (List.append_cancel_right hnumber)⟩

/-- **Two children of one node that have no names never have the same path, whatever their tags are, in either style,
without a boundary and below every boundary, be it one of the two itself.** -/
theorem path_ne_of_siblings (g : Naming) {p a b : t.Node} (ha : IsParentOf p a) (hb : IsParentOf p b) (hab : a ≠ b)
    (hna : a.name = none) (hnb : b.name = none) (c : Option t.Node) : g.path a c ≠ g.path b c := by
  obtain ⟨i, hi⟩ := ha
  obtain ⟨j, hj⟩ := hb
  intro h
  -- The walks above the two are the same, so that only the last segments can differ.
  rw [path_eq_append, path_eq_append, enclosing_eq_of_siblings hi hj] at h
  have hsegment : g.segment a = g.segment b := (List.cons.inj (List.append_cancel_left h)).2
  obtain ⟨htag, hindex⟩ := tag_eq_of_segment_eq hna hnb hsegment
  rcases Nat.lt_trichotomy i j with hij | rfl | hji
  · exact Nat.ne_of_lt (hi.sameTagIndex_lt hj htag hij) hindex
  · exact hab (ext_route (hi.trans hj.symm))
  · exact Nat.ne_of_gt (hj.sameTagIndex_lt hi htag.symm hji) hindex

/-- Two conditions, and between them a node whose tag looks like the segment of the first. -/
def lookalike : Tree :=
  .node { tag := "method", name := some "M" }
    [.node { tag := "if" } [], .node { tag := "if[1]" } [], .node { tag := "if" } []]

/-- The second condition is the boundary for both. -/
theorem path_ne_of_siblings_conditions :
    path ⟨.default, .compact⟩ (⟨[0], rfl⟩ : lookalike.Node) (some ⟨[2], rfl⟩) ≠
      path ⟨.default, .compact⟩ (⟨[2], rfl⟩ : lookalike.Node) (some ⟨[2], rfl⟩) :=
  path_ne_of_siblings ⟨.default, .compact⟩ (p := .top lookalike) (a := ⟨[0], rfl⟩) (b := ⟨[2], rfl⟩) ⟨0, rfl⟩ ⟨2, rfl⟩
    (by decide) rfl rfl (some ⟨[2], rfl⟩)

end Naming

end TreeQuery
