import NameBinding.Text.Dotted
import NameBinding.Tree.Layout

/-! Trees built by hand, children before their parents. `finish` then gives every node its parent
and its span. -/

namespace NameBinding

structure TreeBuilder where
  path : String
  tree : DocTree := {}
  /-- Nodes that lose their span at the end. -/
  unplaced : List NodeRef := []

/-- A step of building. -/
abbrev Build := StateM TreeBuilder

namespace Build

/-- Adds a node, which has no parent and no span yet. -/
def addNode (kind : NodeKind) (modifiers : Flags Modifier) (data : Option Nat) : Build NodeRef :=
  modifyGet fun b =>
    (some b.tree.size,
      { b with tree := { b.tree with
          nodes := b.tree.nodes.push ⟨kind, modifiers, Span.invalid, data⟩
          parents := b.tree.parents.push none } })

/-- Adds a node with contents. -/
def add (kind : NodeKind) (modifiers : Flags Modifier) (record : Record) : Build NodeRef := do
  let data ← modifyGet fun b =>
    (b.tree.pools.size record.sort, { b with tree := { b.tree with
        pools := b.tree.pools.push record } })
  addNode kind modifiers (some data)

/-! ### Names -/

def ident (text : String) : Build NodeRef := add .identifier ∅ (.identifier text)

def stringLiteral (text : String) : Build NodeRef := add .stringLiteral ∅ (.literal text)

/-- Qualifies a name by further segments, from the left. -/
def qualify (left : NodeRef) : List String → Build NodeRef
  | [] => pure left
  | segment :: segments => do
    let right ← ident segment
    let name ← add .qualifiedName ∅ (.qualifiedName ⟨left, right⟩)
    qualify name segments

/-- An identifier, or a qualified name that nests to the left. -/
def entityName (dotted : String) : Build NodeRef :=
  match Dotted.split dotted with
  | [] => ident ""
  | segment :: segments => do
    let first ← ident segment
    qualify first segments

/-! ### Types -/

def keywordType (kind : NodeKind) : Build NodeRef := addNode kind ∅ none

def typeReference (dotted : String) : Build NodeRef := do
  let name ← entityName dotted
  add .typeReference ∅ (.typeReference name)

def arrayType (element : NodeRef) : Build NodeRef := add .arrayType ∅ (.arrayType element)

def typeLiteral (members : List NodeRef) : Build NodeRef :=
  add .typeLiteral ∅ (.typeLiteral members)

def functionLike (kind : NodeKind) (modifiers : Flags Modifier) (name : NodeRef)
    (parameters : List NodeRef) (typeNode body : NodeRef) : Build NodeRef :=
  add kind modifiers (.function ⟨name, parameters, typeNode, body⟩)

def functionType (parameters : List NodeRef) (result : NodeRef) : Build NodeRef :=
  functionLike .functionType ∅ none parameters result none

def constructorType (parameters : List NodeRef) (result : NodeRef) : Build NodeRef :=
  functionLike .constructorType ∅ none parameters result none

/-! ### Statements and expressions -/

/-- Missing parts of statements are left out. -/
def statement (kind : NodeKind) (parts : List NodeRef) : Build NodeRef :=
  add kind ∅ (.statement (parts.filter (·.isSome)))

def block (statements : List NodeRef) : Build NodeRef := statement .block statements

def expression (parts : List NodeRef) : Build NodeRef := statement .expression parts

def ifStatement (thenPart elsePart : NodeRef) : Build NodeRef := do
  let condition ← expression []
  statement .ifStatement [condition, thenPart, elsePart]

def whileStatement (body : NodeRef) : Build NodeRef := do
  let condition ← expression []
  statement .whileStatement [condition, body]

def forStatement (initializer body : NodeRef) : Build NodeRef :=
  statement .forStatement [initializer, body]

def expressionStatement (part : NodeRef) : Build NodeRef := statement .expressionStatement [part]

def returnStatement (part : NodeRef) : Build NodeRef := statement .returnStatement [part]

/-! ### Declarations -/

def sourceFile (statements : List NodeRef) : Build NodeRef := do
  let path := (← get).path
  add .sourceFile ∅ (.sourceFile ⟨path, statements⟩)

/-- A module with a dotted name. -/
def moduleDecl (dotted : String) (modifiers : Flags Modifier) (body : List NodeRef) :
    Build NodeRef := do
  let name ← entityName dotted
  add .moduleDeclaration modifiers (.moduleDecl ⟨name, body⟩)

/-- A module that is named by a text and lies elsewhere. -/
def dynamicModule (text : String) (body : List NodeRef) : Build NodeRef := do
  let name ← stringLiteral text
  add .moduleDeclaration (Flags.single .ambient) (.moduleDecl ⟨name, body⟩)

def classDecl (text : String) (modifiers : Flags Modifier)
    (extended implemented members : List NodeRef) : Build NodeRef := do
  let name ← ident text
  add .classDeclaration modifiers (.classDecl ⟨name, extended, implemented, members⟩)

def interfaceDecl (text : String) (modifiers : Flags Modifier) (extended members : List NodeRef) :
    Build NodeRef := do
  let name ← ident text
  add .interfaceDeclaration modifiers (.interfaceDecl ⟨name, extended, members⟩)

def optionalBody : Option (List NodeRef) → Build NodeRef
  | some statements => block statements
  | none => pure none

/-- A function or method. Without a body it is an overload. -/
def callable (kind : NodeKind) (text : String) (modifiers : Flags Modifier)
    (parameters : List NodeRef) (result : NodeRef) (body : Option (List NodeRef)) :
    Build NodeRef := do
  let name ← ident text
  let body ← optionalBody body
  functionLike kind modifiers name parameters result body

def function (text : String) (modifiers : Flags Modifier) (parameters : List NodeRef)
    (result : NodeRef) (body : Option (List NodeRef)) : Build NodeRef :=
  callable .functionDeclaration text modifiers parameters result body

def method (text : String) (modifiers : Flags Modifier) (parameters : List NodeRef)
    (result : NodeRef) (body : Option (List NodeRef)) : Build NodeRef :=
  callable .methodDeclaration text modifiers parameters result body

def methodSignature (text : String) (modifiers : Flags Modifier) (parameters : List NodeRef)
    (result : NodeRef) : Build NodeRef :=
  callable .methodSignature text modifiers parameters result none

def functionExpression (text : Option String) (parameters : List NodeRef) (result : NodeRef)
    (body : List NodeRef) : Build NodeRef := do
  let name ← match text with
    | some text => ident text
    | none => pure none
  let body ← block body
  functionLike .functionExpression ∅ name parameters result body

def arrowFunction (parameters : List NodeRef) (result : NodeRef) (body : List NodeRef) :
    Build NodeRef := do
  let body ← block body
  functionLike .arrowFunction ∅ none parameters result body

def constructorDecl (modifiers : Flags Modifier) (parameters : List NodeRef)
    (body : Option (List NodeRef)) : Build NodeRef := do
  let body ← optionalBody body
  functionLike .constructor modifiers none parameters none body

def getAccessor (text : String) (modifiers : Flags Modifier) (result : NodeRef)
    (body : List NodeRef) : Build NodeRef :=
  callable .getAccessor text modifiers [] result (some body)

def setAccessor (text : String) (modifiers : Flags Modifier) (parameter : NodeRef)
    (body : List NodeRef) : Build NodeRef :=
  callable .setAccessor text modifiers [parameter] none (some body)

def callSignature (parameters : List NodeRef) (result : NodeRef) : Build NodeRef :=
  functionLike .callSignature ∅ none parameters result none

def constructSignature (parameters : List NodeRef) (result : NodeRef) : Build NodeRef :=
  functionLike .constructSignature ∅ none parameters result none

def indexSignature (parameter valueType : NodeRef) : Build NodeRef :=
  functionLike .indexSignature ∅ none [parameter] valueType none

def valueDecl (kind : NodeKind) (text : String) (modifiers : Flags Modifier)
    (typeNode initializer : NodeRef) : Build NodeRef := do
  let name ← ident text
  add kind modifiers (.property ⟨name, typeNode, initializer⟩)

def property (text : String) (modifiers : Flags Modifier) (typeNode : NodeRef) : Build NodeRef :=
  valueDecl .propertyDeclaration text modifiers typeNode none

def propertySignature (text : String) (modifiers : Flags Modifier) (typeNode : NodeRef) :
    Build NodeRef :=
  valueDecl .propertySignature text modifiers typeNode none

def variableDecl (text : String) (typeNode initializer : NodeRef) : Build NodeRef :=
  valueDecl .variableDeclaration text ∅ typeNode initializer

def variableStatement (modifiers : Flags Modifier) (declarations : List NodeRef) : Build NodeRef :=
  add .variableStatement modifiers (.variableStatement declarations)

/-- A statement that declares one variable. -/
def singleVariable (text : String) (modifiers : Flags Modifier) (typeNode initializer : NodeRef) :
    Build NodeRef := do
  let declaration ← variableDecl text typeNode initializer
  variableStatement modifiers [declaration]

def parameter (text : String) (modifiers : Flags Modifier) (typeNode : NodeRef) :
    Build NodeRef := do
  let name ← ident text
  add .parameter modifiers (.parameter ⟨name, typeNode, none⟩)

/-- A name for what a dotted name denotes. -/
def importEquals (text : String) (modifiers : Flags Modifier) (dotted : String) :
    Build NodeRef := do
  let name ← ident text
  let reference ← entityName dotted
  add .importEqualsDeclaration modifiers (.importEquals ⟨name, reference⟩)

/-- A name for a module that is named by a text. -/
def importRequire (text moduleText : String) : Build NodeRef := do
  let name ← ident text
  let reference ← add .externalModuleReference ∅ (.literal moduleText)
  add .importEqualsDeclaration ∅ (.importEquals ⟨name, reference⟩)

/-- Marks a node as one without a usable span. -/
def markUnplaced (r : NodeRef) : Build Unit :=
  modify fun b => { b with unplaced := b.unplaced ++ [r] }

end Build

namespace TreeBuilder

/-- The tree with its parents and spans. -/
def finish (b : TreeBuilder) (root : NodeRef) : DocTree :=
  (b.tree.layout root).withoutSpans b.unplaced

end TreeBuilder

end NameBinding
