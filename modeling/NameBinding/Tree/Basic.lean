import NameBinding.Span
import NameBinding.Tree.Kind

/-! Document trees. Nodes stand in one array and are named by their position. What a node contains
is a record in the pool for its kind of node. -/

namespace NameBinding

/-- The position of a node in its tree. -/
abbrev NodeIndex := Nat

/-- A place where a node may be missing. A position can also be outside the tree. -/
abbrev NodeRef := Option NodeIndex

namespace NodeRef

/-- The number that stands for a missing node. -/
def noNode : Nat := 4294967295

def ofNumber (n : Nat) : NodeRef := if n = noNode then none else some n

def toNumber (r : NodeRef) : Nat := r.getD noNode

/-- The node, if there is one, as a list. -/
def present (r : NodeRef) : List NodeRef := if r.isSome then [r] else []

end NodeRef

/-- What stands in the node array. -/
structure Node where
  kind : NodeKind
  modifiers : Flags Modifier
  span : Span
  /-- The place of the record in its pool. -/
  data : Option Nat
  deriving DecidableEq, Repr

namespace Node

def hasModifier (n : Node) (m : Modifier) : Bool := n.modifiers.has m

end Node

structure QualifiedName where
  left : NodeRef
  right : NodeRef
  deriving DecidableEq, Repr

structure SourceFile where
  fileName : String
  statements : List NodeRef
  deriving DecidableEq, Repr

structure ModuleDecl where
  /-- An identifier, a qualified name or a string literal. -/
  name : NodeRef
  body : List NodeRef
  deriving DecidableEq, Repr

structure ClassDecl where
  name : NodeRef
  extended : List NodeRef
  implemented : List NodeRef
  members : List NodeRef
  deriving DecidableEq, Repr

structure InterfaceDecl where
  name : NodeRef
  extended : List NodeRef
  members : List NodeRef
  deriving DecidableEq, Repr

/-- The contents of every node with parameters. -/
structure FunctionParts where
  name : NodeRef
  parameters : List NodeRef
  /-- The return type, or the value type of an index signature. -/
  typeNode : NodeRef
  body : NodeRef
  deriving DecidableEq, Repr

/-- The contents of properties, variables and parameters. -/
structure ValueParts where
  name : NodeRef
  typeNode : NodeRef
  initializer : NodeRef
  deriving DecidableEq, Repr

structure ImportEquals where
  name : NodeRef
  /-- A dotted name, or a reference to a module by its text. -/
  reference : NodeRef
  deriving DecidableEq, Repr

/-- The contents of a node. -/
inductive Record where
  | identifier (text : String)
  | literal (text : String)
  | qualifiedName (parts : QualifiedName)
  | sourceFile (file : SourceFile)
  | moduleDecl (decl : ModuleDecl)
  | classDecl (decl : ClassDecl)
  | interfaceDecl (decl : InterfaceDecl)
  | function (parts : FunctionParts)
  | property (parts : ValueParts)
  | variableStatement (declarations : List NodeRef)
  | parameter (parts : ValueParts)
  | importEquals (decl : ImportEquals)
  | statement (parts : List NodeRef)
  | typeReference (name : NodeRef)
  | arrayType (element : NodeRef)
  | typeLiteral (members : List NodeRef)
  deriving DecidableEq, Repr

namespace Record

def sort : Record → RecordSort
  | .identifier _ => .identifier
  | .literal _ => .literal
  | .qualifiedName _ => .qualifiedName
  | .sourceFile _ => .sourceFile
  | .moduleDecl _ => .moduleDecl
  | .classDecl _ => .classDecl
  | .interfaceDecl _ => .interfaceDecl
  | .function _ => .function
  | .property _ => .property
  | .variableStatement _ => .variableStatement
  | .parameter _ => .parameter
  | .importEquals _ => .importEquals
  | .statement _ => .statement
  | .typeReference _ => .typeReference
  | .arrayType _ => .arrayType
  | .typeLiteral _ => .typeLiteral

/-- The nodes below, in the order of the text. Single parts that are missing are left out, while
lists keep their gaps. -/
def children : Record → List NodeRef
  | .identifier _ | .literal _ => []
  | .qualifiedName q => NodeRef.present q.left ++ NodeRef.present q.right
  | .sourceFile f => f.statements
  | .moduleDecl m => NodeRef.present m.name ++ m.body
  | .classDecl c => NodeRef.present c.name ++ c.extended ++ c.implemented ++ c.members
  | .interfaceDecl i => NodeRef.present i.name ++ i.extended ++ i.members
  | .function f => NodeRef.present f.name ++ f.parameters ++ NodeRef.present f.typeNode ++
      NodeRef.present f.body
  | .property p | .parameter p => NodeRef.present p.name ++ NodeRef.present p.typeNode ++
      NodeRef.present p.initializer
  | .variableStatement declarations => declarations
  | .importEquals i => NodeRef.present i.name ++ NodeRef.present i.reference
  | .statement parts => parts
  | .typeReference name => NodeRef.present name
  | .arrayType element => NodeRef.present element
  | .typeLiteral members => members

end Record

/-- The records of a tree, each sort in a pool of its own, oldest first. -/
structure Pools where
  identifiers : Array String := #[]
  literals : Array String := #[]
  qualifiedNames : Array QualifiedName := #[]
  sourceFiles : Array SourceFile := #[]
  modules : Array ModuleDecl := #[]
  classes : Array ClassDecl := #[]
  interfaces : Array InterfaceDecl := #[]
  functions : Array FunctionParts := #[]
  properties : Array ValueParts := #[]
  variableStatements : Array (List NodeRef) := #[]
  parameters : Array ValueParts := #[]
  importEquals : Array ImportEquals := #[]
  statements : Array (List NodeRef) := #[]
  typeReferences : Array NodeRef := #[]
  arrayTypes : Array NodeRef := #[]
  typeLiterals : Array (List NodeRef) := #[]
  deriving DecidableEq, Repr

namespace Pools

instance : Inhabited Pools := ⟨{}⟩

/-- The number of records of a sort. -/
def size (p : Pools) : RecordSort → Nat
  | .identifier => p.identifiers.size
  | .literal => p.literals.size
  | .qualifiedName => p.qualifiedNames.size
  | .sourceFile => p.sourceFiles.size
  | .moduleDecl => p.modules.size
  | .classDecl => p.classes.size
  | .interfaceDecl => p.interfaces.size
  | .function => p.functions.size
  | .property => p.properties.size
  | .variableStatement => p.variableStatements.size
  | .parameter => p.parameters.size
  | .importEquals => p.importEquals.size
  | .statement => p.statements.size
  | .typeReference => p.typeReferences.size
  | .arrayType => p.arrayTypes.size
  | .typeLiteral => p.typeLiterals.size

/-- The record at a place of a pool. -/
def get? (p : Pools) : RecordSort → Nat → Option Record
  | .identifier, i => p.identifiers[i]?.map .identifier
  | .literal, i => p.literals[i]?.map .literal
  | .qualifiedName, i => p.qualifiedNames[i]?.map .qualifiedName
  | .sourceFile, i => p.sourceFiles[i]?.map .sourceFile
  | .moduleDecl, i => p.modules[i]?.map .moduleDecl
  | .classDecl, i => p.classes[i]?.map .classDecl
  | .interfaceDecl, i => p.interfaces[i]?.map .interfaceDecl
  | .function, i => p.functions[i]?.map .function
  | .property, i => p.properties[i]?.map .property
  | .variableStatement, i => p.variableStatements[i]?.map .variableStatement
  | .parameter, i => p.parameters[i]?.map .parameter
  | .importEquals, i => p.importEquals[i]?.map .importEquals
  | .statement, i => p.statements[i]?.map .statement
  | .typeReference, i => p.typeReferences[i]?.map .typeReference
  | .arrayType, i => p.arrayTypes[i]?.map .arrayType
  | .typeLiteral, i => p.typeLiterals[i]?.map .typeLiteral

/-- Puts a record at the end of its pool. -/
def push (p : Pools) : Record → Pools
  | .identifier r => { p with identifiers := p.identifiers.push r }
  | .literal r => { p with literals := p.literals.push r }
  | .qualifiedName r => { p with qualifiedNames := p.qualifiedNames.push r }
  | .sourceFile r => { p with sourceFiles := p.sourceFiles.push r }
  | .moduleDecl r => { p with modules := p.modules.push r }
  | .classDecl r => { p with classes := p.classes.push r }
  | .interfaceDecl r => { p with interfaces := p.interfaces.push r }
  | .function r => { p with functions := p.functions.push r }
  | .property r => { p with properties := p.properties.push r }
  | .variableStatement r => { p with variableStatements := p.variableStatements.push r }
  | .parameter r => { p with parameters := p.parameters.push r }
  | .importEquals r => { p with importEquals := p.importEquals.push r }
  | .statement r => { p with statements := p.statements.push r }
  | .typeReference r => { p with typeReferences := p.typeReferences.push r }
  | .arrayType r => { p with arrayTypes := p.arrayTypes.push r }
  | .typeLiteral r => { p with typeLiterals := p.typeLiterals.push r }

theorem size_push (p : Pools) (r : Record) (s : RecordSort) :
    (p.push r).size s = if s = r.sort then p.size s + 1 else p.size s := by
  cases r <;> cases s <;> simp [push, size, Record.sort]

theorem get?_push (p : Pools) (r : Record) (s : RecordSort) (i : Nat) :
    (p.push r).get? s i = if s = r.sort ∧ i = p.size s then some r else p.get? s i := by
  cases r <;> cases s <;> simp [push, get?, size, Record.sort, Array.getElem?_push] <;>
    split <;> rfl

theorem sort_of_get? {p : Pools} {s : RecordSort} {i : Nat} {r : Record}
    (h : p.get? s i = some r) : r.sort = s := by
  cases s <;> simp only [get?, Option.map_eq_some_iff] at h <;> obtain ⟨_, _, rfl⟩ := h <;> rfl

end Pools

/-- A document tree. -/
structure DocTree where
  nodes : Array Node := #[]
  /-- The node above each node, in the order of `nodes`. -/
  parents : Array NodeRef := #[]
  pools : Pools := {}
  deriving DecidableEq, Repr, Inhabited

namespace DocTree

def size (t : DocTree) : Nat := t.nodes.size

def node? (t : DocTree) (r : NodeRef) : Option Node := r.bind fun i => t.nodes[i]?

def kind? (t : DocTree) (r : NodeRef) : Option NodeKind := (t.node? r).map (·.kind)

/-- The span of a node, and the invalid span where there is none. -/
def span (t : DocTree) (r : NodeRef) : Span := ((t.node? r).map (·.span)).getD Span.invalid

def parent (t : DocTree) (r : NodeRef) : NodeRef := r.bind fun i => (t.parents[i]?).bind id

/-- The contents of a node: the record of its kind's sort at the place that it names. -/
def recordOf? (t : DocTree) (n : Node) : Option Record :=
  n.kind.sort?.bind fun s => n.data.bind fun i => t.pools.get? s i

def record? (t : DocTree) (r : NodeRef) : Option Record := (t.node? r).bind t.recordOf?

/-- The nodes directly below a node, in the order of the text. -/
def children (t : DocTree) (r : NodeRef) : List NodeRef :=
  ((t.record? r).map Record.children).getD []

/-- The text of an identifier or a string literal. -/
def text? (t : DocTree) (r : NodeRef) : Option String :=
  match t.record? r with
  | some (.identifier text) | some (.literal text) => some text
  | _ => none

/-- The text of an identifier or a string literal, and nothing for other nodes. -/
def nameText (t : DocTree) (r : NodeRef) : String := (t.text? r).getD ""

def classDecl? (t : DocTree) (r : NodeRef) : Option ClassDecl :=
  match t.record? r with
  | some (.classDecl c) => some c
  | _ => none

def interfaceDecl? (t : DocTree) (r : NodeRef) : Option InterfaceDecl :=
  match t.record? r with
  | some (.interfaceDecl i) => some i
  | _ => none

def function? (t : DocTree) (r : NodeRef) : Option FunctionParts :=
  match t.record? r with
  | some (.function f) => some f
  | _ => none

def property? (t : DocTree) (r : NodeRef) : Option ValueParts :=
  match t.record? r with
  | some (.property p) => some p
  | _ => none

def parameter? (t : DocTree) (r : NodeRef) : Option ValueParts :=
  match t.record? r with
  | some (.parameter p) => some p
  | _ => none

/-- The type node written on a property, a variable or a parameter, or as a return type. -/
def typeNode (t : DocTree) (r : NodeRef) : NodeRef :=
  match t.record? r with
  | some (.property p) | some (.parameter p) => p.typeNode
  | some (.function f) => f.typeNode
  | _ => none

end DocTree

end NameBinding
