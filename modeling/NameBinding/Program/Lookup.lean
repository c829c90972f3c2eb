import NameBinding.Graph.Query
import NameBinding.Program.Basic

/-! Looking up dotted names from the global names, without resolving anything. -/

namespace NameBinding.SymbolGraph

/-- What an alias is known to stand for. -/
def followAlias (g : SymbolGraph) (id : SymbolId) : SymbolId :=
  if g.kind? id == some .alias then (g.firstTarget id .typedAs).getD id else id

/-- The symbol has the name, and a kind that the meaning admits. -/
def isNamed (g : SymbolGraph) (name : String) (meaning : Meaning) (id : SymbolId) : Bool :=
  match g.get? id with
  | some s => s.name == name && meaning.admits s.kind
  | none => false

/-- Follows segments from a symbol through public members. -/
def memberAlong? (g : SymbolGraph) (meaning : Meaning) : SymbolId → List String → Option SymbolId
  | current, [] => some current
  | current, segment :: rest =>
    ((g.publicMembers (g.followAlias current)).find?
      (g.isNamed segment (meaning.atSegment rest))).bind (g.memberAlong? meaning · rest)

end NameBinding.SymbolGraph

namespace NameBinding.Program

/-- The symbol that a dotted name denotes, seen from outside all documents. Of several symbols with
the first name the first one counts from which the rest of the name leads on. -/
def find? (p : Program) (g : SymbolGraph) (segments : List String) (meaning : Meaning) :
    Option SymbolId :=
  match segments with
  | [] => none
  | first :: rest =>
    let candidates := (p.globalSymbols first).filter fun id =>
      ((g.kind? id).map (meaning.atSegment rest).admits).getD false
    candidates.findSome? (g.memberAlong? meaning · rest)

end NameBinding.Program
