import NameBinding.Graph.Edges

/-! The changes that a bare graph can undergo, one after another. -/

namespace NameBinding

inductive GraphEdit where
  | alloc (name : String) (kind : SymbolKind) (flags : Flags SymbolFlag)
  | link (e : Edge)
  | unlink (e : Edge)
  | unlinkOutgoing (id : SymbolId) (kind : EdgeKind)
  | setSingle (e : Edge)
  | unlinkAll (id : SymbolId)
  | setInstanceType (cls inst : SymbolId)
  | invalidate (id : SymbolId)
  deriving DecidableEq, Repr

namespace GraphEdit

/-- What an edit answers. -/
inductive Answer where
  | done
  /-- The position of a new symbol. -/
  | made (id : SymbolId)
  /-- An edge came or went. -/
  | changed (isSo : Bool)
  /-- Where the removed edges led. -/
  | removed (ids : List SymbolId)
  deriving DecidableEq, Repr

def run : GraphEdit → GraphM Answer
  | .alloc name kind flags => return .made (← GraphM.alloc name kind flags)
  | .link e => return .changed (← GraphM.link e.source e.target e.kind)
  | .unlink e => modifyGet fun g => (.changed (g.hasEdge e), g.removeEdge e)
  | .unlinkOutgoing id kind => modifyGet fun g =>
      (.removed (g.targets id kind), g.removeOutgoing id kind)
  | .setSingle e => do
    GraphM.setSingle e.source e.target e.kind
    return .done
  | .unlinkAll id => do
    modify (·.unlinkAll id)
    return .done
  | .setInstanceType cls inst => do
    GraphM.setInstanceType cls inst
    return .done
  | .invalidate id => do
    modify (·.invalidate id)
    return .done

/-- The graph after an edit, also after one that fails. -/
def apply (edit : GraphEdit) (g : SymbolGraph) : SymbolGraph :=
  match edit.run g with
  | .ok _ g => g
  | .error _ g => g

end GraphEdit

end NameBinding
