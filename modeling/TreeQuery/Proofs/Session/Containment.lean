import TreeQuery.Proofs.Select.Distinct
import TreeQuery.Proofs.Session.Failure

/-!
# Searches inside a snapshot

A search begins at the root of a snapshot, but its axes are those of the whole tree. From the top of a tree there is no
way out; from any other node an absolute path leaves the snapshot at once, and a relative one may leave it above the
root or beside it. Whether it can is seen from its axes, by counting how far below the root each step is sure to end.

* `Axis.depth?`, `Path.staysBelow`: how far below its start a path is sure to stay;
* `Tree.Node.Deep`, `Axis.deep_of_relates`, `Semantics.deep_of_evaluate`: so deep lies what one step and what a path
  leads to;
* `find_eq_ok`: what is found for a path is what it selects;
* `find_leaves_snapshot`: a parent step leads out of a snapshot that is rooted inside a tree;
* `find_stays_inside`: the searches that stay inside, and when registering what they select fails.
-/

namespace TreeQuery

set_option autoImplicit false

open Tree.Node

/-! ## Depth -/

/-- How many levels below a node a step along the axis ends at least, if it starts at least `depth` levels below it;
nothing if it may end above the node or beside it. -/
def Axis.depth? : Axis → Nat → Option Nat
  | child, depth | descendant, depth => some (depth + 1)
  | self, depth | descendantOrSelf, depth => some depth
  | parent, depth + 1 => some depth
  | followingSibling, depth + 1 | precedingSibling, depth + 1 => some (depth + 1)
  | parent, 0 | followingSibling, 0 | precedingSibling, 0 | ancestor, _ | ancestorOrSelf, _ => none

/-- No step of the path can lead above the node where it starts or beside it. -/
def Path.staysBelow (p : Path) : Bool :=
  !p.absolute && (p.steps.foldlM (fun depth (s : Step) => s.axis.depth? depth) 0).isSome

namespace Tree.Node

variable {t : Tree} {r a b : t.Node} {depth : Nat}

/-- The node lies `depth` or more levels below `r`. -/
def Deep (r : t.Node) (depth : Nat) (n : t.Node) : Prop := ∃ route, n.route = r.route ++ route ∧ depth ≤ route.length

theorem deep_self (r : t.Node) : Deep r 0 r := ⟨[], (List.append_nil r.route).symm, Nat.le_refl 0⟩

theorem Deep.mono {depth' : Nat} (h : Deep r depth a) (hle : depth' ≤ depth) : Deep r depth' a := by
  obtain ⟨route, hroute, hlength⟩ := h
  exact ⟨route, hroute, Nat.le_trans hle hlength⟩

theorem Deep.append {is : List Nat} (h : Deep r depth a) (hb : b.route = a.route ++ is) :
    Deep r (depth + is.length) b := by
  obtain ⟨route, hroute, hlength⟩ := h
  refine ⟨route ++ is, by rw [hb, hroute, List.append_assoc], ?_⟩
  rw [List.length_append]
  exact Nat.add_le_add_right hlength is.length

theorem Deep.child {i : Nat} (h : Deep r depth a) (hb : a.ChildAt i b) : Deep r (depth + 1) b := h.append hb

theorem Deep.parent {i : Nat} (h : Deep r (depth + 1) a) (hb : b.ChildAt i a) : Deep r depth b := by
  obtain ⟨route, hroute, hlength⟩ := h
  have hne : route ≠ [] := List.length_pos_iff.mp (Nat.lt_of_lt_of_le (Nat.succ_pos depth) hlength)
  refine ⟨route.dropLast, ?_, ?_⟩
  · rw [← List.dropLast_append_of_ne_nil hne, ← hroute, hb, List.dropLast_concat]
  · rw [List.length_dropLast]
    omega

theorem Deep.sibling {i j : Nat} {p : t.Node} (h : Deep r (depth + 1) a) (ha : p.ChildAt i a) (hb : p.ChildAt j b) :
    Deep r (depth + 1) b := (h.parent ha).child hb

end Tree.Node

/-- A step ends where the axis says. -/
theorem Axis.deep_of_relates {t : Tree} {r a b : t.Node} {axis : Axis} {depth depth' : Nat}
    (hdepth : axis.depth? depth = some depth') (ha : Deep r depth a) (hab : axis.Relates a b) : Deep r depth' b := by
  cases axis with
  | child =>
      obtain rfl := Option.some.inj hdepth
      obtain ⟨i, hi⟩ := hab
      exact ha.child hi
  | descendant =>
      obtain rfl := Option.some.inj hdepth
      obtain ⟨is, hne, hb⟩ := strictlyBelow_iff.mp hab
      have hlength : 0 < is.length := List.length_pos_iff.mpr hne
      exact (ha.append hb).mono (by omega)
  | parent =>
      cases depth with
      | zero => cases hdepth
      | succ depth =>
          obtain rfl := Option.some.inj hdepth
          obtain ⟨i, hi⟩ := hab
          exact ha.parent hi
  | ancestor => cases hdepth
  | ancestorOrSelf => cases hdepth
  | followingSibling =>
      cases depth with
      | zero => cases hdepth
      | succ depth =>
          obtain rfl := Option.some.inj hdepth
          obtain ⟨p, i, j, hi, hj, -⟩ := hab
          exact ha.sibling hi hj
  | precedingSibling =>
      cases depth with
      | zero => cases hdepth
      | succ depth =>
          obtain rfl := Option.some.inj hdepth
          obtain ⟨p, i, j, hi, hj, -⟩ := hab
          exact ha.sibling hj hi
  | self =>
      obtain rfl := Option.some.inj hdepth
      obtain rfl : a = b := hab
      exact ha
  | descendantOrSelf =>
      obtain rfl := Option.some.inj hdepth
      obtain ⟨is, hb⟩ := below_iff.mp hab
      exact (ha.append hb).mono (Nat.le_add_right depth is.length)

namespace Semantics

variable [Regex.Library] {t : Tree} {m : Semantics t}

theorem deep_of_chain {ss : List Step} {r a b : t.Node} {depth depth' : Nat}
    (hdepth : ss.foldlM (fun depth (s : Step) => s.axis.depth? depth) depth = some depth') (ha : Deep r depth a)
    (hab : m.Chain (ss.map Step.bare) a b) : Deep r depth' b := by
  induction ss generalizing a depth with
  | nil =>
      obtain rfl := Option.some.inj hdepth
      cases hab
      exact ha
  | cons s ss ih =>
      rw [List.foldlM_cons] at hdepth
      obtain ⟨middle, hmiddle, hdepth⟩ := Option.bind_eq_some_iff.mp hdepth
      cases hab with
      | cons hlink hchain => exact ih hdepth (Axis.deep_of_relates hmiddle ha hlink.axis) hchain

theorem deep_of_evaluate {p : Path} (hp : p.staysBelow = true) {context : t.Node} {ns : List t.Node}
    (h : m.evaluate p context = .ok ns) {n : t.Node} (hn : n ∈ ns) : Deep context 0 n := by
  rw [Path.staysBelow, Bool.and_eq_true, Bool.not_eq_true', Option.isSome_iff_exists] at hp
  obtain ⟨hrelative, depth, hdepth⟩ := hp
  have hchain := (evaluate_reaches h).2 n hn
  rw [hrelative] at hchain
  exact (deep_of_chain hdepth (deep_self context) hchain).mono (Nat.zero_le depth)

end Semantics

/-! ## Snapshots -/

namespace Session

variable {s : Session} {snapshot : Snapshot}

theorem inside_of_deep {depth : Nat} {n : snapshot.document.tree.Node} (h : Deep snapshot.root depth n) :
    snapshot.Inside ⟨snapshot.document, n⟩ := by
  obtain ⟨route, hroute, -⟩ := h
  exact ⟨n, rfl, below_iff.mpr ⟨route, hroute⟩⟩

theorem inside_of_root_eq_top (h : snapshot.root = .top snapshot.document.tree) (n : snapshot.document.tree.Node) :
    snapshot.Inside ⟨snapshot.document, n⟩ :=
  ⟨n, rfl, below_iff.mpr ⟨n.route, by rw [h]; rfl⟩⟩

theorem not_firstOutside {ns : List snapshot.document.tree.Node} {n : snapshot.document.tree.Node}
    (hns : ∀ k ∈ ns, snapshot.Inside ⟨snapshot.document, k⟩) : ¬ FirstOutside snapshot ns n := by
  intro h
  induction h with
  | here hn => exact hn (hns _ List.mem_cons_self)
  | later _ _ ih => exact ih fun k hk => hns k (List.mem_cons_of_mem _ hk)

theorem find_eq_ok [Regex.Library] {t : Tree} {path : Text} {p : Path} (hparse : s.parse path = .ok p)
    {provider : Option (Provider t)} {context : t.Node} {nodes : List t.Node} :
    (find path context provider s).result = .ok nodes ↔
      Semantics.evaluate ⟨s.vocabulary, provider⟩ p context = .ok nodes := by
  rw [find_result, hparse, ok_bind]
  exact mapError_eq_ok

section Branch

open scoped Regex.Engine

/-- A loop in a branch, seen without the branch. -/
def loopInBranch : Snapshot :=
  ⟨1, ⟨1, .node { tag := "if" } [.node { tag := "while" } [.node { tag := "block" } []]]⟩, ⟨[0], rfl⟩, none⟩

/-- The parent of the root is found although it is outside, and cannot be registered. -/
theorem find_leaves_snapshot :
    (find ".." loopInBranch.root none {}).result = .ok [.top _] ∧
      ¬ loopInBranch.Inside ⟨loopInBranch.document, .top _⟩ ∧
      (findStatements ".." loopInBranch true none {}).result = .error (.outside "if" 1) := by
  refine ⟨by with_unfolding_all rfl, ?_, by with_unfolding_all rfl⟩
  rw [Snapshot.inside_iff]
  decide

end Branch

/-- **What is found for a path in a snapshot is what it selects in the whole tree from the root of the snapshot. If this
root is the top of the tree, or if the path cannot lead above its start or beside it, then all that is found lies inside
the snapshot, and its statements can be registered. In general, registering them fails exactly if one of them lies
outside, for the first that does. With a provider that fails on no node, and as long as no search is given up, every
path can be searched for.** -/
theorem find_stays_inside [Regex.Library] (s : Session) (path : Text) (p : Path) (snapshot : Snapshot) (nested : Bool)
    (provider : Option (Provider snapshot.document.tree)) (hparse : s.parse path = .ok p) :
    (∀ nodes, (find path snapshot.root provider s).result = .ok nodes →
      Semantics.evaluate ⟨s.vocabulary, provider⟩ p snapshot.root = .ok nodes ∧
      (snapshot.root = .top snapshot.document.tree ∨ p.staysBelow = true →
        (∀ n ∈ nodes, snapshot.Inside ⟨snapshot.document, n⟩) ∧
          ∃ records, (findStatements path snapshot nested provider s).result = .ok records) ∧
      ∀ e, (findStatements path snapshot nested provider s).result = .error e ↔
        ∃ n, FirstOutside snapshot (s.statementsAmong nested nodes) n ∧ e = .outside (describe n) snapshot.id) ∧
    (Semantics.IsTotal ⟨s.vocabulary, provider⟩ p.expressions →
      ∃ nodes, (find path snapshot.root provider s).result = .ok nodes) := by
  refine ⟨fun nodes hfind => ?_, fun htotal => ?_⟩
  · have hnodes := (find_eq_ok hparse).mp hfind
    have herror : ∀ e, (findStatements path snapshot nested provider s).result = .error e ↔
        ∃ n, FirstOutside snapshot (s.statementsAmong nested nodes) n ∧ e = .outside (describe n) snapshot.id := by
      intro e
      rw [findStatements_result, hfind, ok_bind, bind_ok_eq_error, mapM_refer_eq_error]
    refine ⟨hnodes, fun hroot => ?_, herror⟩
    have hinside : ∀ n ∈ nodes, snapshot.Inside ⟨snapshot.document, n⟩ := by
      intro n hn
      obtain htop | hbelow := hroot
      · exact inside_of_root_eq_top htop n
      · exact inside_of_deep (Semantics.deep_of_evaluate hbelow hnodes hn)
    refine ⟨hinside, ?_⟩
    cases hresult : (findStatements path snapshot nested provider s).result with
    | ok records => exact ⟨records, rfl⟩
    | error e =>
        obtain ⟨n, hn, -⟩ := (herror e).mp hresult
        exact absurd hn (not_firstOutside fun k hk => hinside k (List.mem_of_mem_filter hk))
  · obtain ⟨nodes, hnodes⟩ := htotal.steps [if p.absolute then .top _ else snapshot.root]
    exact ⟨nodes, (find_eq_ok hparse).mpr hnodes⟩

open scoped Regex.Engine

/-- From the body of the loop, the loop is found and can be registered. -/
theorem find_stays_inside_loop :
    ∃ nodes, (find "block/.." loopInBranch.root none {}).result = .ok nodes ∧
      (∀ n ∈ nodes, loopInBranch.Inside ⟨loopInBranch.document, n⟩) ∧
        ∃ records, (findStatements "block/.." loopInBranch true none {}).result = .ok records := by
  obtain ⟨hstays, htotal⟩ := find_stays_inside {} "block/.."
    ⟨"block/..", false, [⟨.child, some "block", []⟩, ⟨.parent, none, []⟩]⟩ loopInBranch true none
    (by with_unfolding_all rfl)
  obtain ⟨nodes, hfind⟩ := htotal (Semantics.isTotal_of_provider (by rintro ask ⟨⟩) _)
  exact ⟨nodes, hfind, (hstays nodes hfind).2.1 (.inr rfl)⟩

end Session

end TreeQuery
