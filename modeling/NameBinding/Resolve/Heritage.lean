import NameBinding.Graph.Members
import NameBinding.Resolve.Collision
import NameBinding.Resolve.Path

/-! The bases of classes and interfaces. A base is resolved before it is linked, so that a cycle is
seen by the type that would close it. -/

namespace NameBinding.ResolveM

/-- What an entry among the bases denotes, searched from outside the declaration. A name that is
not found gives the error symbol, and what is no object type is reported and gives nothing. -/
def heritageTarget (setting : Setting) (site : DeclSite) (notObject : Nat) (entry : NodeRef) :
    ResolveM (Option SymbolId) := do
  let name := match site.tree.record? entry with
    | some (.typeReference name) => name
    | _ => entry
  let segments := site.tree.entityName name
  let span := site.tree.span entry
  let asNamedType ← findPath setting segments [] site.decl.parent .type
  let found ← match asNamedType with
    | some found => pure (some found)
    | none => findPath setting segments [] site.decl.parent .any
  match found with
  | none => do
    report (.ofCode site.file span Message.cannotFindName [Dotted.join segments])
    return some WellKnown.error
  | some found => do
    let type ← asType setting found
    let kind? := (← graph).kind? type
    if (kind?.map (·.isObjectType)).getD false || kind? == some .error then return some type
    else
      report (.ofCode site.file span notObject [])
      return none

section Pull

variable (pull : SymbolId → ResolveM Unit)

/-- Links a base, after it was resolved itself, unless that would close a cycle. -/
def linkBase (setting : Setting) (site : DeclSite) (type : SymbolId) (entry : NodeRef)
    (base : SymbolId) : ResolveM Unit := do
  pull base
  let g ← graph
  if setting.options.detectHeritageCycles &&
      g.extendsWithin setting.options.maxHeritageDepth base type then
    report (.ofCode site.file (site.tree.span entry) Message.recursiveBase [g.name type])
  else link type base .extends

/-- Resolves an entry and links what it denotes as a base. -/
def extendWith (setting : Setting) (site : DeclSite) (notObject : Nat) (type : SymbolId)
    (entry : NodeRef) : ResolveM Unit := do
  match ← heritageTarget setting site notObject entry with
  | some base => linkBase pull setting site type entry base
  | none => pure ()

/-- Resolves an entry and links what it denotes as implemented. -/
def implementWith (setting : Setting) (site : DeclSite) (type : SymbolId) (entry : NodeRef) :
    ResolveM Unit := do
  match ← heritageTarget setting site Message.classBaseNotObject entry with
  | some target => link type target .implements
  | none => pure ()

/-- Links the bases that one class declaration names to the instance side. -/
def resolveClassDecl (setting : Setting) (inst : SymbolId) (decl : DeclId) : ResolveM Unit := do
  let site ← site setting decl
  match site.tree.classDecl? site.decl.node with
  | none => pure ()
  | some c => do
    c.extended.forM (extendWith pull setting site Message.classBaseNotObject inst)
    c.implemented.forM (implementWith setting site inst)

/-- Resolves the bases of a class, given a way to resolve those of its bases. -/
def resolveClassWith (setting : Setting) (cls : SymbolId) : ResolveM Unit := do
  if ← begin cls then
    match (← graph).instanceType? cls with
    | none => throw (.missingInstanceType cls)
    | some inst => do
      markResolved inst
      removeOutgoing inst .extends
      removeOutgoing inst .implements
      (← declarations cls).forM (resolveClassDecl pull setting inst)
      checkCollisions setting inst
      checkCollisions setting cls

/-- Links the bases that one interface declaration names. -/
def resolveInterfaceDecl (setting : Setting) (interface : SymbolId) (decl : DeclId) :
    ResolveM Unit := do
  let site ← site setting decl
  match site.tree.interfaceDecl? site.decl.node with
  | none => pure ()
  | some i =>
    i.extended.forM (extendWith pull setting site Message.interfaceBaseNotObject interface)

/-- Resolves the bases of an interface, given a way to resolve those of its bases. -/
def resolveInterfaceWith (setting : Setting) (interface : SymbolId) : ResolveM Unit := do
  if ← begin interface then
    removeOutgoing interface .extends
    (← declarations interface).forM (resolveInterfaceDecl pull setting interface)
    checkCollisions setting interface

end Pull

/-- Resolves the bases of a type, for at most the given number of types one below the other. -/
def pullWithin (setting : Setting) : Nat → SymbolId → ResolveM Unit
  | 0, type => throw (.endlessHeritage type)
  | types + 1, type => do
    let g ← graph
    match g.kind? type with
    | some .instanceType => match g.classOfInstance? type with
      | some cls => resolveClassWith (pullWithin setting types) setting cls
      | none => pure ()
    | some .interface => resolveInterfaceWith (pullWithin setting types) setting type
    | _ => pure ()

/-- Resolves the bases of a type. Each type on the way is marked first, so there are no more of
them than symbols. -/
def pull (setting : Setting) (type : SymbolId) : ResolveM Unit := do
  pullWithin setting ((← graph).size + 1) type

def resolveClass (setting : Setting) (cls : SymbolId) : ResolveM Unit :=
  resolveClassWith (pull setting) setting cls

def resolveInterface (setting : Setting) (interface : SymbolId) : ResolveM Unit :=
  resolveInterfaceWith (pull setting) setting interface

end NameBinding.ResolveM
