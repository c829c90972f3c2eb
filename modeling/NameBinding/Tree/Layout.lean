import NameBinding.Tree.Basic

/-! Parents and spans. A node starts where the text before it ends, takes room for its own words,
then for its children in order, and then one more place, so spans nest as the nodes do. -/

namespace NameBinding.DocTree

/-- The room for the words of a node: their bytes and one more place. -/
def width (t : DocTree) (r : NodeRef) (kind : NodeKind) : Nat :=
  match kind with
  | .identifier | .stringLiteral => ((t.text? r).map (·.utf8ByteSize + 1)).getD 1
  | _ => (kind.keywordText.map (·.utf8ByteSize + 1)).getD 1

def setParent (t : DocTree) (i : NodeIndex) (parent : NodeRef) : DocTree :=
  { t with parents := t.parents.modify i fun _ => parent }

def setSpan (t : DocTree) (i : NodeIndex) (span : Span) : DocTree :=
  { t with nodes := t.nodes.modify i fun n => { n with span } }

/-- Places the nodes at and below `r` from an offset on, and returns the offset after them. At most
`depth` levels are placed. -/
def place : Nat → NodeRef → DocTree × Nat → NodeRef → DocTree × Nat
  | 0, _, placed, _ => placed
  | depth + 1, parent, (t, start), r =>
    match r, t.node? r with
    | some i, some node =>
      let children := t.children r
      let first := start + t.width r node.kind
      let (t, stop) := children.foldl (place depth r) (t.setParent i parent, first)
      (t.setSpan i ⟨start, stop + 1⟩, stop + 1)
    | _, _ => (t, start)

/-- Places the tree below `root` from the start of the document. No node has more levels below it
than the tree has nodes. -/
def layout (t : DocTree) (root : NodeRef) : DocTree := (place (t.size + 1) none (t, 0) root).1

/-- Takes the spans of some nodes away. -/
def withoutSpans (t : DocTree) (marked : List NodeRef) : DocTree :=
  marked.foldl (fun t r => match r with
    | some i => t.setSpan i Span.invalid
    | none => t) t

end NameBinding.DocTree
