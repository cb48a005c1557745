import TreeQuery.Proofs.Naming.Nesting
import TreeQuery.Proofs.Session.Failure
import TreeQuery.Regex.Engine

/-!
# Searching for statements without the nested ones

A search that leaves nested statements out registers one statement of each nest, the outermost: whatever else it comes
across lies below such a statement, in the same declaration. The outermost statement need not be among the nodes that
the path selects, and it may lie outside the snapshot.

* `map_resolve?_of_mapM_refer`, `registered_iff`: which of the nodes that a path selects are registered;
* `outermost_statements`: the nests of statements, and what a search leaves out of them.
-/

namespace TreeQuery.Session

set_option autoImplicit false

open Tree.Node

variable {s : Session} {snapshot : Snapshot}

/-- References that were made to nodes resolve to these. -/
theorem map_resolve?_of_mapM_refer {ns : List snapshot.document.tree.Node} {targets : List Reference}
    (h : (ns.mapM fun n => refer snapshot ⟨snapshot.document, n⟩) = .ok targets) :
    targets.map snapshot.resolve? = ns.map some := by
  induction ns generalizing targets with
  | nil =>
      cases h
      rfl
  | cons n ns ih =>
      rw [List.mapM_cons] at h
      obtain ⟨r, hr, h⟩ := bind_eq_ok.mp h
      obtain ⟨rs, hrs, h⟩ := bind_eq_ok.mp h
      cases h
      rw [List.map_cons, List.map_cons, ih hrs, Snapshot.resolve?_self (refer_eq_ok.mp hr)]

section Statements

variable [Regex.Library]

/-- Of the nodes that a path selects, the wanted statements are registered. -/
theorem registered_iff {path : Text} {nested : Bool} {provider : Option (Provider snapshot.document.tree)}
    {nodes : List snapshot.document.tree.Node} {records : List Statement}
    (hfind : (find path snapshot.root provider s).result = .ok nodes)
    (hrecords : (findStatements path snapshot nested provider s).result = .ok records)
    (n : snapshot.document.tree.Node) :
    (∃ e ∈ records, snapshot.resolve? e.target = some n) ↔ n ∈ s.statementsAmong nested nodes := by
  rw [findStatements_result, hfind, ok_bind] at hrecords
  obtain ⟨targets, htargets, hrecords⟩ := bind_eq_ok.mp hrecords
  have hrecorded : records.map Statement.target = targets := by
    rw [← Except.ok.inj hrecords]
    exact Statements.map_target_registerAll s.statements targets _ _
  have hresolved : records.map (fun e => snapshot.resolve? e.target) = (s.statementsAmong nested nodes).map some := by
    rw [← map_resolve?_of_mapM_refer htargets, ← hrecorded, List.map_map]
    rfl
  rw [← List.mem_map, hresolved, List.mem_map]
  simp only [Option.some.injEq, exists_eq_right]

theorem isNested_of_not_registered {path : Text} {provider : Option (Provider snapshot.document.tree)}
    {nodes : List snapshot.document.tree.Node} {records : List Statement}
    (hfind : (find path snapshot.root provider s).result = .ok nodes)
    (hrecords : (findStatements path snapshot false provider s).result = .ok records)
    {n : snapshot.document.tree.Node} (hn : n ∈ nodes) (hstatement : s.vocabulary.isStatement n.tag = true)
    (hdropped : ∀ e ∈ records, snapshot.resolve? e.target ≠ some n) : s.naming.isNested n = true := by
  cases hnested : s.naming.isNested n with
  | true => rfl
  | false =>
      have hmem : n ∈ s.statementsAmong false nodes := by
        rw [statementsAmong, List.mem_filter, hstatement, hnested]
        exact ⟨hn, rfl⟩
      obtain ⟨e, he, hresolve⟩ := (registered_iff hfind hrecords n).mpr hmem
      exact absurd hresolve (hdropped e he)

/-- **Take a statement and what encloses it up to, but not including, the nearest declaration: exactly one of these
nodes is a statement that is not nested, and all statements among them lie at or below it. So between two statements
that are not nested, one of which lies above the other, there is a declaration, the upper statement included. And every
statement that a path selects and that is not registered, because nested ones are left out, lies in its declaration
below a statement that is not nested.** -/
theorem outermost_statements (s : Session) :
    (∀ {t : Tree} (b : t.Node), s.vocabulary.isStatement b.tag = true →
      ∃ r, (∀ m, s.naming.Within m b ∧ s.vocabulary.isStatement m.tag = true ∧ s.naming.isNested m = false ↔ m = r) ∧
        ∀ m, s.naming.Within m b → s.vocabulary.isStatement m.tag = true → Relation.ReflTransGen IsParentOf r m) ∧
    (∀ {t : Tree} (a b : t.Node), s.vocabulary.isStatement a.tag = true → s.naming.isNested a = false →
      s.vocabulary.isStatement b.tag = true → s.naming.isNested b = false → Relation.TransGen IsParentOf a b →
      ∃ d, Relation.ReflTransGen IsParentOf a d ∧ Relation.TransGen IsParentOf d b ∧
        s.vocabulary.isDeclaration d.tag = true) ∧
    ∀ (path : Text) (snapshot : Snapshot) (provider : Option (Provider snapshot.document.tree))
      (nodes : List snapshot.document.tree.Node) (records : List Statement),
      (find path snapshot.root provider s).result = .ok nodes →
      (findStatements path snapshot false provider s).result = .ok records →
      ∀ n ∈ nodes, s.vocabulary.isStatement n.tag = true → (∀ e ∈ records, snapshot.resolve? e.target ≠ some n) →
        s.naming.isNested n = true ∧ ∃ a, Relation.TransGen IsParentOf a n ∧ s.naming.Within a n ∧
          s.vocabulary.isStatement a.tag = true ∧ s.naming.isNested a = false := by
  refine ⟨fun b hb => ?_, fun a b ha _ _ hnested hab => ?_,
    fun path snapshot provider nodes records hfind hrecords n hn hstatement hdropped => ?_⟩
  · obtain ⟨r, hr, hstatement, hnested⟩ := Naming.exists_outermost (g := s.naming) hb
    refine ⟨r, fun m => ⟨fun ⟨hm, hmstatement, hmnested⟩ => ?_, ?_⟩, fun m hm => hr.below_of_outermost hnested hm⟩
    · have hrm := hr.below_of_outermost hnested hm hmstatement
      have hmr := hm.below_of_outermost hmnested hr hstatement
      exact below_antisymm hmr hrm
    · rintro rfl
      exact ⟨hr, hstatement, hnested⟩
  · exact Naming.exists_declaration_between (g := s.naming) hab ha hnested
  · have hnested := isNested_of_not_registered hfind hrecords hn hstatement hdropped
    obtain ⟨r, hr, hrstatement, hrnested⟩ := Naming.exists_outermost (g := s.naming) hstatement
    refine ⟨hnested, r, (eq_or_strictlyBelow hr.1).resolve_left ?_, hr, hrstatement, hrnested⟩
    rintro rfl
    rw [hnested] at hrnested
    cases hrnested

end Statements

/-- A loop whose body declares a function, in which one condition stands in another. -/
def functionInLoop : Tree :=
  .node { tag := "while" } [.node { tag := "block" }
    [.node { tag := "local-function" } [.node { tag := "if" } [.node { tag := "if" } []]]]]

open scoped Regex.Engine

/-- The function keeps the outer condition apart from the loop; the inner condition is left out. -/
theorem outermost_statements_function :
    (∃ r : functionInLoop.Node, ∀ m, Naming.Within (naming {}) m ⟨[0, 0, 0, 0], rfl⟩ ∧
      Vocabulary.isStatement (vocabulary {}) m.tag = true ∧ Naming.isNested (naming {}) m = false ↔ m = r) ∧
    (∃ d, Relation.ReflTransGen IsParentOf (.top functionInLoop) d ∧
      Relation.TransGen IsParentOf d ⟨[0, 0, 0], rfl⟩ ∧ Vocabulary.isDeclaration (vocabulary {}) d.tag = true) ∧
    ∃ a : functionInLoop.Node, Relation.TransGen IsParentOf a ⟨[0, 0, 0, 0], rfl⟩ ∧
      Vocabulary.isStatement (vocabulary {}) a.tag = true ∧ Naming.isNested (naming {}) a = false := by
  obtain ⟨hone, hbetween, hdropped⟩ := outermost_statements {}
  obtain ⟨r, hr, -⟩ := hone (⟨[0, 0, 0, 0], rfl⟩ : functionInLoop.Node) (by decide)
  obtain ⟨-, a, ha, -, hstatement, hnested⟩ := hdropped "//if" ⟨1, ⟨1, functionInLoop⟩, .top _, none⟩ none
    [⟨[0, 0, 0], rfl⟩, ⟨[0, 0, 0, 0], rfl⟩] [⟨"stmt-1", ⟨1, [0, 0, 0], "if", none⟩, "", "default"⟩]
    (by with_unfolding_all rfl) (by with_unfolding_all rfl) ⟨[0, 0, 0, 0], rfl⟩ (by decide) (by decide) (by decide)
  refine ⟨⟨r, hr⟩, ?_, a, ha, hstatement, hnested⟩
  exact hbetween (.top _) ⟨[0, 0, 0], rfl⟩ (by decide) (by decide) (by decide) (by decide)
    (mem_ancestors.mp (by decide))

end TreeQuery.Session
