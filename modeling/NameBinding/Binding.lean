import NameBinding.Graph.Query
import NameBinding.Program.Basic

/-! Binding the declarations of a unit to symbols. Declarations stand before the ones below them, so
one pass meets every scope before its contents. Types and bases are left for later. -/

namespace NameBinding

/-- The graph and the program, which change together while a unit is bound. -/
structure Binding where
  graph : SymbolGraph
  program : Program

/-- A step of binding. Changes before a failure stay. -/
abbrev BindM := EStateM BindError Binding

namespace BindM

def onGraph {α : Type} (step : GraphM α) : BindM α := fun b =>
  match step b.graph with
  | .ok a graph => .ok a { b with graph }
  | .error e graph => .error e { b with graph }

def graph : BindM SymbolGraph := return (← get).graph

def alloc (name : String) (kind : SymbolKind) (flags : Flags SymbolFlag) : BindM SymbolId :=
  onGraph (GraphM.alloc name kind flags)

def link (source target : SymbolId) (kind : EdgeKind) : BindM Unit := do
  let _ ← onGraph (GraphM.link source target kind)

/-- Lists a declaration on a symbol that it contributes to. -/
def contribute (symbol : SymbolId) (decl : DeclId) : BindM Unit :=
  onGraph (GraphM.declare symbol decl)

/-- Lists a declaration on its symbol, and the symbol on the declaration. -/
def record (decl : DeclId) (symbol : SymbolId) : BindM Unit := do
  contribute symbol decl
  if ((← get).program.decl? decl).isNone then throw (.unknownDecl decl)
  modify fun b =>
    { b with program := b.program.modifyUnit decl.unit (·.modifyDecl decl (·.bindTo symbol)) }

def addTopLevel (unit : UnitId) (name : String) (symbol : SymbolId) : BindM Unit :=
  modify fun b => { b with program := b.program.modifyUnit unit (·.addTopLevel name symbol) }

/-! ### Where a declaration goes -/

/-- Members of a class that belong to its instances. -/
def isInstanceMember (d : Decl) : Bool :=
  !d.has .static && match d.kind with
    | .method | .field => !d.name.isEmpty
    | .callSignature | .indexSignature => true
    | _ => false

/-- The symbol that a declaration is put below: the scope, or the instance side of a class. -/
def owner (scope : Option SymbolId) (d : Decl) : BindM (Option SymbolId) := do
  match scope with
  | none => return none
  | some scope =>
    let g ← graph
    if isInstanceMember d && g.kind? scope == some .classType then
      match g.instanceType? scope with
      | some inst => return some inst
      | none => throw (.missingInstanceType scope)
    else return some scope

/-- Modules, classes and interfaces belong to a module also when they are not exported. -/
def isModuleMember (kind : DeclKind) : Bool :=
  match kind with
  | .module | .dynamicModule | .classDecl | .interface => true
  | _ => false

/-- The membership edge for a declaration below a symbol of some kind. What gets none is a local. -/
def membership? (d : Decl) : SymbolKind → Option EdgeKind
  | .classType => some .staticProperty
  | .instanceType | .interface | .typeLiteral =>
    some (if d.has .privateAccess then .privateProperty else .publicProperty)
  | .module | .dynamicModule =>
    if d.has .exported then some .publicProperty
    else if isModuleMember d.kind then some .privateProperty
    else none
  | _ => none

/-- Puts a new symbol below its owner, or among the global names. -/
def attach (unit : UnitId) (owner : Option SymbolId) (symbol : SymbolId) (d : Decl) :
    BindM Unit := do
  match owner with
  | none => if !d.name.isEmpty then addTopLevel unit d.name symbol
  | some owner =>
    let g ← graph
    match if d.name.isEmpty then none else (g.kind? owner).bind (membership? d) with
    | some kind => link owner symbol kind
    | none => link symbol owner .containedBy

/-- A living symbol with the same name at the same place. -/
def mergeable? (b : Binding) (owner : Option SymbolId) (name : String)
    (accept : SymbolKind → Flags SymbolFlag → Bool) : Option SymbolId :=
  if name.isEmpty then none
  else
    let candidates := match owner with
      | some owner => b.graph.children owner
      | none => b.program.globalSymbols name
    candidates.find? fun id => match b.graph.get? id with
      | some s => s.name == name && s.isDeclared && accept s.kind s.flags
      | none => false

/-- Takes the symbol with which a declaration merges, or a new one. -/
def mergeOrCreate (unit : UnitId) (scope : Option SymbolId) (d : Decl) (kind : SymbolKind)
    (accept : SymbolKind → Flags SymbolFlag → Bool) : BindM SymbolId := do
  let owner ← owner scope d
  match mergeable? (← get) owner d.name accept with
  | some symbol =>
    if owner.isNone then addTopLevel unit d.name symbol
    return symbol
  | none =>
    let symbol ← alloc d.name kind d.flags.toSymbolFlags
    attach unit owner symbol d
    return symbol

/-- Makes a symbol of its own for a declaration. -/
def create (unit : UnitId) (scope : Option SymbolId) (d : Decl) (kind : SymbolKind) :
    BindM Unit := do
  let owner ← owner scope d
  let symbol ← alloc d.name kind d.flags.toSymbolFlags
  attach unit owner symbol d
  record d.id symbol

/-! ### The kinds of declarations -/

/-- What the declarations directly below one are bound in. -/
inductive Inside where
  /-- They are not bound. -/
  | closed
  /-- They are bound in a symbol, or at the top. -/
  | scope (symbol : Option SymbolId)
  deriving DecidableEq, Repr, Inhabited

/-- Modules and interfaces merge with a symbol of their kind. -/
def bindMerged (unit : UnitId) (scope : Option SymbolId) (d : Decl) (kind : SymbolKind) :
    BindM Inside := do
  let symbol ← mergeOrCreate unit scope d kind fun k _ => k == kind
  record d.id symbol
  return .scope (some symbol)

/-- Classes never merge. Each makes a static side and an instance side. -/
def bindClass (unit : UnitId) (scope : Option SymbolId) (d : Decl) : BindM Inside := do
  let owner ← owner scope d
  let cls ← alloc d.name .classType d.flags.toSymbolFlags
  let inst ← alloc d.name .instanceType d.flags.toSymbolFlags
  onGraph (GraphM.setInstanceType cls inst)
  contribute inst d.id
  attach unit owner cls d
  record d.id cls
  return .scope (some cls)

/-- A parameter with an access word is also a field of the instances. -/
def bindParameterField (inst : SymbolId) (arg : Decl) : BindM Unit := do
  let field ← alloc arg.name .field arg.flags.toSymbolFlags
  contribute field arg.id
  link inst field (if arg.has .privateAccess then .privateProperty else .publicProperty)

def bindArgument (signature : SymbolId) (fieldsOf : Option SymbolId) (arg : Decl) :
    BindM Unit := do
  let param ← alloc arg.name .parameter (arg.flags ∩ Flags.single .optional).toSymbolFlags
  record arg.id param
  link signature param .parameter
  match fieldsOf with
  | some inst => if arg.has .publicAccess || arg.has .privateAccess then bindParameterField inst arg
  | none => pure ()

/-- Makes the signature of a declaration, with a parameter for each argument below it. -/
def bindSignature (d : Decl) (flags : Flags SymbolFlag) (fieldsOf : Option SymbolId) :
    BindM SymbolId := do
  let signature ← alloc d.name .signature flags
  contribute signature d.id
  d.children.forM fun child => do
    match (← get).program.decl? child with
    | none => throw (.unknownDecl child)
    | some arg => if arg.kind = .argument then bindArgument signature fieldsOf arg
  return signature

/-- Functions and methods merge, and each declaration contributes a signature. The first one with a
body is the definition. -/
def bindFunction (unit : UnitId) (scope : Option SymbolId) (d : Decl) : BindM Inside := do
  let kind := match d.kind with
    | .method | .staticMethod => SymbolKind.method
    | _ => .function
  let function ← mergeOrCreate unit scope d kind fun k _ => k == kind
  record d.id function
  let isDefinition := d.has .implementation && ((← graph).definition? function).isNone
  let signature ← bindSignature d (if isDefinition then Flags.single .definition else ∅) none
  link function signature .callSignature
  return .scope (some function)

/-- The instance side that gets the fields of a constructor, if the scope is a class. -/
def constructedType (scope : Option SymbolId) : BindM (Option SymbolId) := do
  let g ← graph
  match scope with
  | none => return none
  | some cls =>
    if g.kind? cls == some .classType then
      match g.instanceType? cls with
      | some inst => return some inst
      | none => throw (.missingInstanceType cls)
    else return none

/-- A constructor is a signature of its class. -/
def bindConstructor (scope : Option SymbolId) (d : Decl) : BindM Inside := do
  let fieldsOf ← constructedType scope
  let flags := Flags.single .constructor
  let signature ← bindSignature d
    (if d.has .implementation then flags.insert .definition else flags) fieldsOf
  match scope with
  | some scope => link scope signature .constructSignature
  | none => pure ()
  record d.id signature
  return .scope (some signature)

/-- A signature that stands among the members. What is below it is not bound. -/
def bindMemberSignature (scope : Option SymbolId) (d : Decl) : BindM Inside := do
  let owner ← if d.kind = .constructSignature then pure scope else owner scope d
  let signature ← bindSignature d
    (if d.kind = .constructSignature then Flags.single .constructor else ∅) none
  match owner with
  | some owner => link owner signature <| match d.kind with
      | .constructSignature => .constructSignature
      | .indexSignature => .indexSignature
      | _ => .callSignature
  | none => pure ()
  record d.id signature
  return .closed

/-- The two accessors of a field share a symbol. -/
def bindAccessor (unit : UnitId) (scope : Option SymbolId) (d : Decl) : BindM Inside := do
  let symbol ← mergeOrCreate unit scope d .field fun k flags => k == .field && flags.has .accessor
  record d.id symbol
  return .scope (some symbol)

def bindValue (unit : UnitId) (scope : Option SymbolId) (d : Decl) (kind : SymbolKind) :
    BindM Inside := do
  create unit scope d kind
  return .closed

/-- Binds one declaration in a scope. Arguments are bound with their signature. -/
def bindDecl (unit : UnitId) (scope : Option SymbolId) (d : Decl) : BindM Inside :=
  match d.kind with
  | .script => return .scope scope
  | .module => bindMerged unit scope d .module
  | .dynamicModule => bindMerged unit scope d .dynamicModule
  | .interface => bindMerged unit scope d .interface
  | .classDecl => bindClass unit scope d
  | .function | .method | .staticMethod =>
    if d.has .constructor then bindConstructor scope d else bindFunction unit scope d
  | .field | .staticField =>
    if d.has .accessor then bindAccessor unit scope d else bindValue unit scope d .field
  | .variable => bindValue unit scope d .variable
  | .import => bindValue unit scope d .alias
  | .callSignature | .constructSignature | .indexSignature => bindMemberSignature scope d
  | .argument => return .closed

/-- What a declaration is bound in, from what the declarations before it have inside. -/
def around (opened : Array Inside) (d : Decl) : Inside :=
  match d.parent with
  | some parent => opened[parent.index]?.getD .closed
  | none => .scope none

/-- Binds a declaration where it stands, and notes what is inside it. -/
def bindNext (unit : UnitId) (opened : Array Inside) (d : Decl) : BindM (Array Inside) := do
  match around opened d with
  | .closed => return opened.push .closed
  | .scope scope => return opened.push (← bindDecl unit scope d)

/-- Binds all declarations of a unit. -/
def bindUnit (unit : UnitId) : BindM Unit := do
  match (← get).program.unitById? unit with
  | none => throw (.unknownUnit unit)
  | some u =>
    if (u.decl? u.rootDecl).isNone then throw (.unknownDecl u.rootDecl)
    let _ ← u.decls.toList.foldlM (bindNext unit) #[]

end BindM

end NameBinding
