import TreeQuery.Text.Basic

/-!
# Syntax trees

* `Span`, `Label`: what a node carries besides its children;
* `Tree`, with decidable equality;
* `Tree.sub?`: the subtree reached by following child indices;
* `Tree.routes`: all such lists of indices, in document order;
* `Tree.sourceText`: the source text of a tree.
-/

namespace TreeQuery

set_option autoImplicit false

/-- Lines and columns where a piece of source text starts and ends; line zero means unknown. -/
structure Span where
  startLine : Nat := 0
  startColumn : Nat := 0
  endLine : Nat := 0
  endColumn : Nat := 0
deriving DecidableEq

def Span.isEmpty (s : Span) : Bool := s.startLine == 0

/-- What a node carries: its tag, the name that it declares, its modifiers in byte order, where it
stands, its language if it differs from its parent's, and its source text if that is known. -/
structure Label where
  tag : Text
  name : Option Text := none
  modifiers : List Text := []
  span : Span := {}
  language : Text := []
  text : Option Text := none
deriving DecidableEq

/-- An ordered tree of labelled nodes. -/
inductive Tree where
  | node (label : Label) (children : List Tree)

namespace Tree

def label : Tree → Label
  | node l _ => l

def children : Tree → List Tree
  | node _ cs => cs

/-! ## Equality -/

mutual

def decEq : (s t : Tree) → Decidable (s = t)
  | node l cs, node m ds =>
    match inferInstanceAs (Decidable (l = m)), decEqList cs ds with
    | isTrue h, isTrue h' => isTrue (by rw [h, h'])
    | isFalse h, _ => isFalse fun e => h (Tree.node.inj e).1
    | _, isFalse h => isFalse fun e => h (Tree.node.inj e).2

def decEqList : (ss ts : List Tree) → Decidable (ss = ts)
  | [], [] => isTrue rfl
  | [], _ :: _ => isFalse nofun
  | _ :: _, [] => isFalse nofun
  | s :: ss, t :: ts =>
    match decEq s t, decEqList ss ts with
    | isTrue h, isTrue h' => isTrue (by rw [h, h'])
    | isFalse h, _ => isFalse fun e => h (List.cons.inj e).1
    | _, isFalse h => isFalse fun e => h (List.cons.inj e).2

end

instance : DecidableEq Tree := decEq

/-! ## Routes -/

/-- The subtree at the end of a route of child indices, if the route stays inside the tree. -/
def sub? (t : Tree) : List Nat → Option Tree
  | [] => some t
  | i :: route => t.children[i]?.bind fun c => c.sub? route

mutual

/-- The routes of a tree in document order: a node comes before its descendants, and these before its
later siblings. -/
def routes : Tree → List (List Nat)
  | node _ cs => [] :: routesFrom 0 cs

/-- The routes into neighbouring children, the first of which has index `i`. -/
def routesFrom (i : Nat) : List Tree → List (List Nat)
  | [] => []
  | c :: cs => c.routes.map (i :: ·) ++ routesFrom (i + 1) cs

end

/-! ## Source text -/

mutual

/-- The known source text, or else the tag, the name and the texts of the children with blanks
between them. -/
def sourceText : Tree → Text
  | node l cs => l.text.getD (l.tag ++ l.name.elim [] (0x20 :: ·) ++ sourceTexts cs)

def sourceTexts : List Tree → Text
  | [] => []
  | c :: cs => 0x20 :: c.sourceText ++ sourceTexts cs

end

end Tree

end TreeQuery
