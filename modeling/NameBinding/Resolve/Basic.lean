import NameBinding.Diagnostic
import NameBinding.Graph.Query
import NameBinding.Graph.WellKnown
import NameBinding.Limits
import NameBinding.Program.Basic

/-! Resolving names on demand. A request does its work once: it marks its symbol, and from then on
the edges answer until the symbol is invalidated. -/

namespace NameBinding

/-- What binding and resolving are to do. -/
structure Options where
  /-- Bases that would close a cycle are refused and reported. -/
  detectHeritageCycles : Bool := true
  /-- Levels of bases searched for a cycle. -/
  maxHeritageDepth : Nat := Limits.heritageDepth
  /-- Enclosing declarations searched for a name. -/
  maxScopePathDepth : Nat := Limits.scopePathDepth
  /-- Levels of tree nodes searched for declarations. -/
  maxCollectDepth : Nat := Limits.collectDepth
  /-- A field and a method of one name in one container are reported. -/
  reportMemberCollisions : Bool := true
  deriving DecidableEq, Repr, Inhabited

/-- What resolving reads and does not change. -/
structure Setting where
  program : Program
  options : Options

/-- What resolving changes. -/
structure Resolution where
  graph : SymbolGraph
  diagnostics : List Diagnostic

/-- A step of resolving. Changes before a failure stay. -/
abbrev ResolveM := EStateM BindError Resolution

/-- A declaration with the document around it. -/
structure DeclSite where
  decl : Decl
  tree : DocTree
  file : String

namespace ResolveM

def graph : ResolveM SymbolGraph := return (← get).graph

def onGraph {α : Type} (step : GraphM α) : ResolveM α := fun r =>
  match step r.graph with
  | .ok a graph => .ok a { r with graph }
  | .error e graph => .error e { r with graph }

def alloc (name : String) (kind : SymbolKind) (flags : Flags SymbolFlag) : ResolveM SymbolId :=
  onGraph (GraphM.alloc name kind flags)

def link (source target : SymbolId) (kind : EdgeKind) : ResolveM Unit := do
  let _ ← onGraph (GraphM.link source target kind)

def setSingle (source target : SymbolId) (kind : EdgeKind) : ResolveM Unit :=
  onGraph (GraphM.setSingle source target kind)

def markResolved (id : SymbolId) : ResolveM Unit :=
  modify fun r => { r with graph := r.graph.setResolved id true }

def removeOutgoing (id : SymbolId) (kind : EdgeKind) : ResolveM Unit :=
  modify fun r => { r with graph := r.graph.removeOutgoing id kind }

/-- Reports a problem, unless the same report is there. -/
def report (d : Diagnostic) : ResolveM Unit :=
  modify fun r =>
    if d ∈ r.diagnostics then r else { r with diagnostics := r.diagnostics ++ [d] }

/-- Marks a symbol and says whether there is work to do for it. -/
def begin (id : SymbolId) : ResolveM Bool := do
  match (← graph).get? id with
  | none => throw (.unknownSymbol id)
  | some s =>
    if s.resolved then return false
    else
      markResolved id
      return true

def declarations (id : SymbolId) : ResolveM (List DeclId) := do
  match (← graph).get? id with
  | none => throw (.unknownSymbol id)
  | some s => return s.declarations

def site (setting : Setting) (decl : DeclId) : ResolveM DeclSite := do
  match setting.program.unitById? decl.unit with
  | none => throw (.unknownUnit decl.unit)
  | some u => match u.decl? decl with
    | none => throw (.unknownDecl decl)
    | some d => return ⟨d, u.tree, u.path⟩

/-- The place of the first declaration of a symbol. -/
def firstSite (setting : Setting) (id : SymbolId) : ResolveM (Option DeclSite) := do
  match (← declarations id).head? with
  | none => return none
  | some decl => return some (← site setting decl)

end ResolveM

end NameBinding
