import NameBinding.Graph.Edges

/-! What the edges of a symbol say about it. Which lists a symbol has depends on its kind. -/

namespace NameBinding.SymbolGraph

/-- The symbol around another one: what contains it, or the class of an instance side, or else the
owner of a signature or parameter. -/
def container? (g : SymbolGraph) (id : SymbolId) : Option SymbolId :=
  (g.firstTarget id .containedBy).or <| (g.firstSource id .instanceType).or <|
    ((g.incoming id).find? fun e => e.kind.isSignature || e.kind == .parameter).map (·.source)

/-- The type that a symbol denotes or is annotated with. -/
def type? (g : SymbolGraph) (id : SymbolId) : Option SymbolId :=
  (g.firstTarget id .typedAs).or <|
    match g.kind? id with
    | some .classType => g.firstTarget id .instanceType
    | some kind => if kind.isType || kind.isFunctionLike then some id else none
    | none => none

/-- The class of an instance side. -/
def classOfInstance? (g : SymbolGraph) (id : SymbolId) : Option SymbolId :=
  g.firstSource id .instanceType

/-- A list that only symbols of certain kinds have. -/
def listFor (g : SymbolGraph) (id : SymbolId) (kinds : SymbolKind → Bool) (list : List SymbolId) :
    List SymbolId :=
  if ((g.kind? id).map kinds).getD false then list else []

/-- The declared members in the order in which they were bound. -/
def members (g : SymbolGraph) (id : SymbolId) : List SymbolId :=
  g.listFor id SymbolKind.hasMembers
    (((g.outgoing id).filter fun e => e.kind.isMembership).map (·.target))

def publicMembers (g : SymbolGraph) (id : SymbolId) : List SymbolId :=
  g.listFor id SymbolKind.hasMembers (g.targets id .publicProperty)

def staticMembers (g : SymbolGraph) (id : SymbolId) : List SymbolId :=
  g.listFor id SymbolKind.hasMembers (g.targets id .staticProperty)

/-- Targets that were found. -/
def foundTargets (g : SymbolGraph) (id : SymbolId) (kind : EdgeKind) : List SymbolId :=
  (g.targets id kind).filter fun t => g.kind? t != some .error

/-- The bases of a type. One that was not found keeps its edge but is not listed. -/
def extendedTypes (g : SymbolGraph) (id : SymbolId) : List SymbolId :=
  g.listFor id SymbolKind.hasMembers (g.foundTargets id .extends)

def implementedTypes (g : SymbolGraph) (id : SymbolId) : List SymbolId :=
  g.listFor id SymbolKind.hasMembers (g.foundTargets id .implements)

/-- The symbol is the signature of an implementation. -/
def isDefinition (g : SymbolGraph) (id : SymbolId) : Bool := g.has id .definition

/-- Targets in order, those of implementations last. -/
def orderedSignatures (g : SymbolGraph) (id : SymbolId) (kind : EdgeKind) : List SymbolId :=
  (g.targets id kind).filter (!g.isDefinition ·) ++ (g.targets id kind).filter g.isDefinition

/-- The call signatures of a type, a module, a function or a method. -/
def callSignatures (g : SymbolGraph) (id : SymbolId) : List SymbolId :=
  g.listFor id (fun k => k.hasMembers || k.isFunctionLike) (g.orderedSignatures id .callSignature)

def constructSignatures (g : SymbolGraph) (id : SymbolId) : List SymbolId :=
  g.listFor id SymbolKind.hasMembers (g.orderedSignatures id .constructSignature)

def indexSignatures (g : SymbolGraph) (id : SymbolId) : List SymbolId :=
  g.listFor id SymbolKind.hasMembers (g.targets id .indexSignature)

/-- The signature of the implementation of a function or method. -/
def definition? (g : SymbolGraph) (id : SymbolId) : Option SymbolId :=
  (g.listFor id SymbolKind.isFunctionLike
    ((g.targets id .callSignature).filter g.isDefinition)).head?

def parameters (g : SymbolGraph) (id : SymbolId) : List SymbolId :=
  g.listFor id (· == .signature) (g.targets id .parameter)

def returnType? (g : SymbolGraph) (id : SymbolId) : Option SymbolId :=
  (g.listFor id (· == .signature) (g.targets id .returnType)).head?

/-- The element type of an array type. -/
def elementType? (g : SymbolGraph) (id : SymbolId) : Option SymbolId := g.firstTarget id .arrayOf

/-- The array types with the given element type. -/
def arrayTypes (g : SymbolGraph) (id : SymbolId) : List SymbolId := g.sources id .arrayOf

/-- Members and locals. -/
def children (g : SymbolGraph) (id : SymbolId) : List SymbolId := g.sources id .containedBy

/-- The symbols with an edge to this one that is not containment, each once. -/
def dependents (g : SymbolGraph) (id : SymbolId) : List SymbolId :=
  (((g.incoming id).filter fun e => e.kind != .containedBy).map (·.source)).eraseDups

end NameBinding.SymbolGraph
