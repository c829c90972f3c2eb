import NameBinding.Graph.Query
import NameBinding.Graph.Walk
import NameBinding.Limits

/-! Members of types, also inherited ones. -/

namespace NameBinding.SymbolGraph

/-- A type and its bases, nearest first, down to a number of levels. -/
def heritage (g : SymbolGraph) (depth : Nat) (id : SymbolId) : List SymbolId :=
  Walk.reach g.extendedTypes depth [id]

/-- The second type is the first one or one of its bases. -/
def extendsWithin (g : SymbolGraph) (depth : Nat) (id target : SymbolId) : Bool :=
  (g.heritage depth id).contains target

def extendsTransitively (g : SymbolGraph) (id target : SymbolId) : Bool :=
  g.extendsWithin Limits.heritageDepth id target

def firstNamed (g : SymbolGraph) (ids : List SymbolId) (name : String) : Option SymbolId :=
  ids.find? fun m => g.name m == name

/-- A member of the type itself, found on at most `depth` sides of a class. Of these the instance
side comes before the static side. -/
def ownMemberWithin (g : SymbolGraph) (name : String) : Nat → SymbolId → Option SymbolId
  | 0, _ => none
  | depth + 1, id =>
    match g.kind? id with
    | none => none
    | some .classType =>
      ((g.instanceType? id).bind (g.ownMemberWithin name depth)).or
        (g.firstNamed (g.members id) name)
    | some _ => g.firstNamed (g.members id) name

/-- A member of the type itself. A symbol has no more sides than there are symbols. -/
def ownMember? (g : SymbolGraph) (id : SymbolId) (name : String) : Option SymbolId :=
  g.ownMemberWithin name (g.size + 1) id

/-- The first member with a name in a type and its bases. -/
def inheritedMember? (g : SymbolGraph) (id : SymbolId) (name : String) : Option SymbolId :=
  (g.heritage Limits.heritageDepth id).findSome? fun type => g.firstNamed (g.members type) name

/-- A member of a type or of its bases, found on at most `depth` sides of a class. Of these the
members of instances come before the static ones. -/
def memberWithin (g : SymbolGraph) (name : String) : Nat → SymbolId → Option SymbolId
  | 0, _ => none
  | depth + 1, id =>
    match g.kind? id with
    | none => none
    | some .classType =>
      ((g.instanceType? id).bind (g.memberWithin name depth)).or
        (g.firstNamed (g.staticMembers id) name)
    | some _ => g.inheritedMember? id name

/-- A member of a type or of its bases. -/
def member? (g : SymbolGraph) (id : SymbolId) (name : String) : Option SymbolId :=
  g.memberWithin name (g.size + 1) id

/-- Adds the members of one type that no nearer type has by name. -/
def addVisible (g : SymbolGraph) (visible : List SymbolId) (type : SymbolId) : List SymbolId :=
  let names := visible.map g.name
  visible ++ (g.members type).filter fun m => !names.contains (g.name m)

/-- The members of a type and those of its bases that are not hidden by a nearer member of the same
name. A class has the members of its instances. -/
def allMembers (g : SymbolGraph) (id : SymbolId) : List SymbolId :=
  let start := match g.kind? id with
    | none => none
    | some .classType => g.instanceType? id
    | some _ => some id
  match start with
  | none => []
  | some type => (g.heritage Limits.heritageDepth type).foldl g.addVisible []

end NameBinding.SymbolGraph
