import NameBinding.Text.Dotted
import NameBinding.Tree.Basic

/-! The dotted names that identifiers and qualified names spell. -/

namespace NameBinding.DocTree

/-- The segments of a name, outermost first, for a name of at most `depth` levels. A node that is
neither an identifier nor a qualified name of such nodes spells no name. -/
def segmentsWithin (t : DocTree) : Nat → NodeRef → Option (List String)
  | 0, _ => none
  | depth + 1, r =>
    match t.record? r with
    | some (.identifier text) => some [text]
    | some (.qualifiedName q) => do
      let left ← t.segmentsWithin depth q.left
      let right ← t.segmentsWithin depth q.right
      return left ++ right
    | _ => none

/-- The segments of a name, and none for other nodes. No name has more levels than the tree has
nodes. -/
def entityName (t : DocTree) (r : NodeRef) : List String :=
  (t.segmentsWithin (t.size + 1) r).getD []

/-- The segments with full stops between them. -/
def dottedName (t : DocTree) (r : NodeRef) : String := Dotted.join (t.entityName r)

end NameBinding.DocTree
