import NameBinding.Resolve.Heritage
import NameBinding.Resolve.TypeNode

/-! Resolving whatever a symbol needs: bases for types, signatures for functions, annotations for
values, and what aliases stand for. -/

namespace NameBinding.ResolveM

def resolveModule (setting : Setting) (id : SymbolId) : ResolveM Unit := do
  if ← begin id then checkCollisions setting id

/-- The annotation on a declaration of a value, and whether a getter gives it. A setter gives the
annotation of its first parameter. -/
def valueTypeNode (site : DeclSite) : Option (NodeRef × Bool) :=
  let t := site.tree
  (t.node? site.decl.node).map fun node =>
    match node.kind with
    | .variableDeclaration | .propertyDeclaration | .propertySignature | .parameter =>
      (t.typeNode site.decl.node, false)
    | .getAccessor =>
      let typeNode := t.typeNode site.decl.node
      (typeNode, typeNode.isSome)
    | .setAccessor =>
      let first := ((t.function? site.decl.node).map (·.parameters)).bind List.head?
      (((t.parameter? (first.getD none)).map (·.typeNode)).getD none, false)
    | _ => (none, false)

/-- Chooses the annotation among declarations: the one of a getter, or else the first one. -/
def chooseTypeNode (setting : Setting) (chosen : Option (DeclSite × NodeRef)) :
    List DeclId → ResolveM (Option (DeclSite × NodeRef))
  | [] => return chosen
  | decl :: decls => do
    let site ← site setting decl
    match valueTypeNode site with
    | none => chooseTypeNode setting chosen decls
    | some (typeNode, true) => return some (site, typeNode)
    | some (typeNode, false) =>
      chooseTypeNode setting (chosen.or (some (site, typeNode))) decls

/-- Types a variable, a field or a parameter from its annotation. -/
def resolveValue (setting : Setting) (id : SymbolId) : ResolveM Unit := do
  if ← begin id then
    let type ← match ← chooseTypeNode setting none (← declarations id) with
      | some (site, some typeNode) =>
        typeAt setting ⟨site.tree, site.file, [], site.decl.parent⟩ (some typeNode)
      | _ => pure WellKnown.any
    setSingle id type .typedAs

/-- The return type of a signature from its first declaration. A constructor returns the instance
side of its class. -/
def declaredReturn (setting : Setting) (id : SymbolId) (site : DeclSite) : ResolveM SymbolId := do
  let typeNode := ((site.tree.function? site.decl.node).map (·.typeNode)).getD none
  let g ← graph
  if typeNode.isNone && g.has id .constructor then
    return ((g.container? id).bind g.instanceType?).getD WellKnown.any
  else typeAt setting ⟨site.tree, site.file, [], some site.decl.id⟩ typeNode

/-- Types the parameters and the return type of a signature. -/
def resolveSignature (setting : Setting) (id : SymbolId) : ResolveM Unit := do
  if ← begin id then
    ((← graph).parameters id).forM (resolveValue setting)
    match ← firstSite setting id with
    | none => pure ()
    | some site => do
      let type ← declaredReturn setting id site
      setSingle id type .returnType

/-- Reports every implementation of a function after the first. -/
def reportImplementations (setting : Setting) (seen : Bool) : List DeclId → ResolveM Unit
  | [] => pure ()
  | decl :: decls => do
    let site ← site setting decl
    let isImplementation := site.decl.has .implementation
    if seen && isImplementation then
      report (.ofCode site.file site.decl.span Message.duplicateImplementation [])
    reportImplementations setting (seen || isImplementation) decls

/-- Resolves the signatures of a function or method. -/
def resolveFunction (setting : Setting) (id : SymbolId) : ResolveM Unit := do
  if ← begin id then
    ((← graph).callSignatures id).forM (resolveSignature setting)
    reportImplementations setting false (← declarations id)

/-- Resolves a symbol of any kind. -/
def resolveSymbol (setting : Setting) (id : SymbolId) : ResolveM Unit := do
  let g ← graph
  match g.kind? id with
  | none => throw (.unknownSymbol id)
  | some .module | some .dynamicModule => resolveModule setting id
  | some .classType => resolveClass setting id
  | some .instanceType => match g.classOfInstance? id with
    | some cls => resolveClass setting cls
    | none => pure ()
  | some .interface => resolveInterface setting id
  | some .function | some .method => resolveFunction setting id
  | some .signature => resolveSignature setting id
  | some .variable | some .field | some .parameter => resolveValue setting id
  | some .alias => do
    let _ ← resolveAlias setting id
  | some .primitive | some .error | some .typeLiteral | some .array => markResolved id

end NameBinding.ResolveM
