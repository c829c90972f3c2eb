import NameBinding.Resolve.Path

/-! The types that type nodes denote. Arrays are made once for each element type. Function types and
type literals are made anew for each node. -/

namespace NameBinding

/-- Where a type node stands. -/
structure TypePlace where
  tree : DocTree
  file : String
  /-- Symbols to search first. -/
  context : List SymbolId
  enclosing : Option DeclId

namespace ResolveM

/-- The array type of an element type. -/
def arrayOf (element : SymbolId) : ResolveM SymbolId := do
  let g ← graph
  match g.arrayTypes element with
  | [] => do
    let array ← alloc (g.name element ++ "[]") .array (Flags.single .synthesized)
    link array element .arrayOf
    markResolved array
    return array
  | [array] => return array
  | many => throw (.duplicateArrayType element many.length)

/-- The type that a name denotes at a place. What is no type is reported as not found. -/
def namedType (setting : Setting) (place : TypePlace) (name reported : NodeRef) :
    ResolveM SymbolId := do
  let segments := place.tree.entityName name
  let missing : ResolveM SymbolId := do
    report (.ofCode place.file (place.tree.span reported) Message.cannotFindName
      [Dotted.join segments])
    return WellKnown.error
  match ← findPath setting segments place.context place.enclosing .type with
  | none => missing
  | some found => do
    let type ← asType setting found
    if (((← graph).kind? type).map (·.isType)).getD false then return type else missing

/-- The flags of what is made for a part of a type node. -/
def partFlags (node : Node) : Flags SymbolFlag :=
  if node.hasModifier .optional then (Flags.single .synthesized).insert .optional
  else Flags.single .synthesized

section Nested

variable (place : TypePlace) (resolve : NodeRef → ResolveM SymbolId)

/-- Makes a parameter of a signature, with its type. -/
def makeParameter (signature : SymbolId) (r : NodeRef) : ResolveM Unit := do
  match place.tree.node? r, place.tree.parameter? r with
  | some node, some p => do
    let parameter ← alloc (place.tree.nameText p.name) .parameter (partFlags node)
    link signature parameter .parameter
    let type ← resolve p.typeNode
    setSingle parameter type .typedAs
    markResolved parameter
  | _, _ => pure ()

/-- Makes the signature of a node with parameters. -/
def makeSignature (r : NodeRef) : ResolveM SymbolId := do
  let signature ← alloc "" .signature (Flags.single .synthesized)
  (((place.tree.function? r).map (·.parameters)).getD []).forM
    (makeParameter place resolve signature)
  let type ← resolve (((place.tree.function? r).map (·.typeNode)).getD none)
  setSingle signature type .returnType
  markResolved signature
  return signature

/-- Makes a symbol that holds the signature of a node. -/
def makeCallable (r : NodeRef) (kind : SymbolKind) (signatureKind : EdgeKind) :
    ResolveM SymbolId := do
  let callable ← alloc "" kind (Flags.single .synthesized)
  let signature ← makeSignature place resolve r
  link callable signature signatureKind
  markResolved callable
  return callable

def makeField (literal : SymbolId) (node : Node) (p : ValueParts) : ResolveM Unit := do
  let field ← alloc (place.tree.nameText p.name) .field (partFlags node)
  link literal field .publicProperty
  let type ← resolve p.typeNode
  setSingle field type .typedAs
  markResolved field

/-- The method of a type literal with a name, made on first use. -/
def literalMethod (literal : SymbolId) (name : String) : ResolveM SymbolId := do
  let g ← graph
  match (g.members literal).find? fun m => g.name m == name && g.kind? m == some .method with
  | some method => return method
  | none => do
    let method ← alloc name .method (Flags.single .synthesized)
    link literal method .publicProperty
    markResolved method
    return method

/-- Makes one member of a type literal. Overloads of a method share a symbol. -/
def makeMember (literal : SymbolId) (r : NodeRef) : ResolveM Unit := do
  match place.tree.node? r with
  | none => pure ()
  | some node =>
    match node.kind with
    | .propertySignature => match place.tree.property? r with
      | some p => makeField place resolve literal node p
      | none => pure ()
    | .methodSignature => do
      let name := place.tree.nameText (((place.tree.function? r).map (·.name)).getD none)
      let method ← literalMethod literal name
      let signature ← makeSignature place resolve r
      link method signature .callSignature
    | .callSignature => do
      let signature ← makeSignature place resolve r
      link literal signature .callSignature
    | .constructSignature => do
      let signature ← makeSignature place resolve r
      link literal signature .constructSignature
    | .indexSignature => do
      let signature ← makeSignature place resolve r
      link literal signature .indexSignature
    | _ => pure ()

def makeLiteral (r : NodeRef) : ResolveM SymbolId := do
  let literal ← alloc "" .typeLiteral (Flags.single .synthesized)
  markResolved literal
  let members := match place.tree.record? r with
    | some (.typeLiteral members) => members
    | _ => []
  members.forM (makeMember place resolve literal)
  return literal

/-- The type that a node denotes, given the types of the nodes below it. What is no type node
denotes any type. -/
def typeOfNode (setting : Setting) (r : NodeRef) : ResolveM SymbolId := do
  match place.tree.kind? r with
  | some .typeReference =>
    let name := match place.tree.record? r with
      | some (.typeReference name) => name
      | _ => none
    namedType setting place name r
  | some .identifier | some .qualifiedName => namedType setting place r r
  | some .arrayType => do
    let element := match place.tree.record? r with
      | some (.arrayType element) => element
      | _ => none
    arrayOf (← resolve element)
  | some .functionType => makeCallable place resolve r .function .callSignature
  | some .constructorType => makeCallable place resolve r .typeLiteral .constructSignature
  | some .typeLiteral => makeLiteral place resolve r
  | some kind => return (WellKnown.ofKeyword? kind).getD WellKnown.any
  | none => return WellKnown.any

end Nested

/-- The type that a node denotes, for a node with at most the given number of levels. -/
def typeWithin (setting : Setting) (place : TypePlace) : Nat → NodeRef → ResolveM SymbolId
  | 0, r => throw (.endlessTypeNode r)
  | levels + 1, r => typeOfNode place (typeWithin setting place levels) setting r

/-- The type that a node denotes. A tree has no more levels than nodes, and one level more is for a
node that is missing. -/
def typeAt (setting : Setting) (place : TypePlace) (r : NodeRef) : ResolveM SymbolId :=
  typeWithin setting place (place.tree.size + 1) r

/-- The type that a node of a unit denotes as seen from a declaration. -/
def typeReference (setting : Setting) (unit : UnitId) (r : NodeRef) (context : List SymbolId)
    (enclosing : Option DeclId) : ResolveM SymbolId := do
  match setting.program.unitById? unit with
  | none => throw (.unknownUnit unit)
  | some u => typeAt setting ⟨u.tree, u.path, context, enclosing⟩ r

end ResolveM

end NameBinding
