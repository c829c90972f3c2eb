import NameBinding.Decl.ScopeStack
import NameBinding.Limits
import NameBinding.Program.Unit
import NameBinding.Tree.EntityName

/-! Collecting the declarations of a document, top down. What lies deeper than a limit is left out,
and the first node that is left out is reported. -/

namespace NameBinding

/-- A unit while its declarations are collected. -/
structure Collection where
  unit : CompilationUnit
  /-- A node was left out and reported. -/
  truncated : Bool := false

/-- A step of collecting. -/
abbrev Collect := StateM Collection

namespace Collect

/-- The open scopes, by their declarations. -/
abbrev Scopes := ScopeStack DeclId

def tree : Collect DocTree := return (← get).unit.tree

/-- Adds a declaration to the innermost scope. -/
def declare (scopes : Scopes) (node : NodeRef) (name : String) (kind : DeclKind)
    (flags : Flags DeclFlag) : Collect DeclId :=
  modifyGet fun c =>
    let id := c.unit.nextDecl
    let span := c.unit.tree.span node
    (id, { c with unit := c.unit.addDecl (.fresh id name kind flags span scopes.current node) })

/-- Reports the first node that lies too deep. -/
def leaveOut (limit : Nat) (node : NodeRef) : Collect Unit :=
  modify fun c =>
    if c.truncated then c
    else
      let report := Diagnostic.ofCode c.unit.path (c.unit.tree.span node) Message.nestedTooDeeply
        [Nat.repr limit]
      { truncated := true, unit := { c.unit with diagnostics := c.unit.diagnostics ++ [report] } }

/-- Declares a module for each segment, one inside the other. All but the outermost are exported.
Returns the scopes inside the last. -/
def declareModules (node : NodeRef) (flags : Flags DeclFlag) :
    Scopes → List String → Collect Scopes
  | scopes, [] => pure scopes
  | scopes, segment :: segments => do
    let id ← declare scopes node segment .module flags
    declareModules node (Flags.single .exported ∪ flags ∩ Flags.single .ambient)
      (scopes.push id segment) segments

section Visit

variable (inside : Scopes → NodeRef → Collect Unit)

def visitAll (scopes : Scopes) (nodes : List NodeRef) : Collect Unit := nodes.forM (inside scopes)

/-- Visits some nodes in a scope of their own. -/
def visitScope (scopes : Scopes) (id : DeclId) (name : String) (nodes : List NodeRef) :
    Collect Unit :=
  visitAll inside (scopes.push id name) nodes

def visitModule (scopes : Scopes) (node : NodeRef) (flags : Flags DeclFlag) (m : ModuleDecl) :
    Collect Unit := do
  let t ← tree
  if t.kind? m.name = some .stringLiteral then
    let name := t.nameText m.name
    let id ← declare scopes node name .dynamicModule flags
    visitScope inside scopes id name m.body
  else
    let segments := t.entityName m.name
    let scopes ← declareModules node flags scopes (if segments.isEmpty then [""] else segments)
    visitAll inside scopes m.body

def visitParameter (scopes : Scopes) (r : NodeRef) : Collect Unit := do
  let t ← tree
  match t.node? r, t.parameter? r with
  | some node, some p => do
    let _ ← declare scopes r (t.nameText p.name) .argument (.ofModifiers node.modifiers)
    inside scopes p.initializer
  | _, _ => pure ()

def visitFunction (scopes : Scopes) (node : NodeRef) (name : String) (kind : DeclKind)
    (flags : Flags DeclFlag) (f : FunctionParts) : Collect Unit := do
  let bodyFlag := if f.body.isSome then DeclFlag.implementation else .signature
  let id ← declare scopes node name kind (flags.insert bodyFlag)
  let scopes := scopes.push id name
  f.parameters.forM (visitParameter inside scopes)
  inside scopes f.body

/-- Accessors are fields, one declaration for each accessor. -/
def visitAccessor (scopes : Scopes) (node : NodeRef) (kind : DeclKind) (flags : Flags DeclFlag)
    (f : FunctionParts) : Collect Unit := do
  let name := (← tree).nameText f.name
  let id ← declare scopes node name kind (flags.insert .accessor)
  visitScope inside scopes id name [f.body]

def visitVariable (flags : Flags DeclFlag) (scopes : Scopes) (r : NodeRef) : Collect Unit := do
  let t ← tree
  match t.property? r with
  | some p => do
    let _ ← declare scopes r (t.nameText p.name) .variable flags
    inside scopes p.initializer
  | none => pure ()

/-- Declares what one node declares, and visits the nodes below it. Type nodes declare nothing. -/
def visitNode (scopes : Scopes) (r : NodeRef) (node : Node) : Collect Unit := do
  let t ← tree
  let flags := Flags.ofModifiers node.modifiers
  let isStatic := flags.has .static
  match node.kind with
  | .sourceFile => do
    let path := (← get).unit.path
    let id ← declare scopes r path .script ∅
    visitScope inside scopes id path (t.children r)
  | .moduleDeclaration =>
    match t.record? r with
    | some (.moduleDecl m) => visitModule inside scopes r flags m
    | _ => pure ()
  | .classDeclaration =>
    match t.record? r with
    | some (.classDecl c) => do
      let name := t.nameText c.name
      let id ← declare scopes r name .classDecl flags
      visitScope inside scopes id name c.members
    | _ => pure ()
  | .interfaceDeclaration =>
    match t.record? r with
    | some (.interfaceDecl i) => do
      let name := t.nameText i.name
      let id ← declare scopes r name .interface flags
      visitScope inside scopes id name i.members
    | _ => pure ()
  | .functionDeclaration | .functionExpression | .arrowFunction =>
    withFunction t fun f => visitFunction inside scopes r (t.nameText f.name) .function flags f
  | .methodDeclaration | .methodSignature =>
    withFunction t fun f => visitFunction inside scopes r (t.nameText f.name)
      (if isStatic then .staticMethod else .method) flags f
  | .constructor =>
    withFunction t fun f =>
      visitFunction inside scopes r "constructor" .method (flags.insert .constructor) f
  | .callSignature =>
    withFunction t fun f =>
      visitFunction inside scopes r (t.nameText f.name) .callSignature (flags.insert .call) f
  | .constructSignature =>
    withFunction t fun f => visitFunction inside scopes r (t.nameText f.name) .constructSignature
      (flags.insert .constructor) f
  | .indexSignature =>
    withFunction t fun f =>
      visitFunction inside scopes r (t.nameText f.name) .indexSignature (flags.insert .index) f
  | .getAccessor | .setAccessor =>
    withFunction t fun f =>
      visitAccessor inside scopes r (if isStatic then .staticField else .field) flags f
  | .propertyDeclaration | .propertySignature =>
    match t.property? r with
    | some p => do
      let _ ← declare scopes r (t.nameText p.name) (if isStatic then .staticField else .field) flags
      inside scopes p.initializer
    | none => pure ()
  | .variableStatement =>
    match t.record? r with
    | some (.variableStatement declarations) =>
      declarations.forM (visitVariable inside flags scopes)
    | _ => pure ()
  | .variableDeclaration => visitVariable inside flags scopes r
  | .importEqualsDeclaration =>
    match t.record? r with
    | some (.importEquals i) => do
      let _ ← declare scopes r (t.nameText i.name) .import flags
    | _ => pure ()
  | .unknown | .externalModuleReference | .parameter | .block | .ifStatement | .whileStatement
  | .forStatement | .expressionStatement | .returnStatement | .expression =>
    visitAll inside scopes (t.children r)
  | .identifier | .stringLiteral | .qualifiedName | .typeReference | .arrayType | .functionType
  | .constructorType | .typeLiteral | .anyKeyword | .numberKeyword | .stringKeyword
  | .booleanKeyword | .voidKeyword | .nullKeyword | .undefinedKeyword => pure ()
where
  withFunction (t : DocTree) (visit : FunctionParts → Collect Unit) : Collect Unit :=
    match t.function? r with
    | some f => visit f
    | none => pure ()

end Visit

/-- Visits a node and what is below it, down to the given number of levels out of `limit`. -/
def visit (limit : Nat) : Nat → Scopes → NodeRef → Collect Unit
  | 0, _, r => do
    if ((← tree).node? r).isSome then leaveOut limit r
  | levels + 1, scopes, r => do
    match (← tree).node? r with
    | some node => visitNode (visit limit levels) scopes r node
    | none => pure ()

/-- Visits the whole tree. A root that is not a source file gets a script around it. -/
def visitRoot (limit : Nat) : Collect DeclId := do
  let u := (← get).unit
  if u.tree.kind? u.root = some .sourceFile then
    visit limit limit .empty u.root
    return u.nextDecl
  else
    let id ← declare .empty u.root u.path .script ∅
    visit limit limit (ScopeStack.empty.push id u.path) u.root
    return id

end Collect

namespace CompilationUnit

/-- Adds the declarations of the tree, down to a number of levels, and notes the root. -/
def collect (u : CompilationUnit) (limit : Nat) : CompilationUnit :=
  let (root, c) := (Collect.visitRoot limit).run { unit := u }
  { c.unit with rootDecl := root }

end CompilationUnit

end NameBinding
