import NameBinding.Binding
import NameBinding.Program.Collect
import NameBinding.Graph.Walk
import NameBinding.Program.Lookup
import NameBinding.Resolve.Symbol

/-! A program that is edited: documents come, change and go, and what was resolved through them is
invalidated. -/

namespace NameBinding

namespace SymbolGraph

/-- The symbols whose state covers that of another one: the other side of a class, and the signature
and function around a parameter. -/
def coveredBy (g : SymbolGraph) (id : SymbolId) : List SymbolId :=
  match g.kind? id with
  | some .instanceType => (g.classOfInstance? id).toList
  | some .classType => (g.instanceType? id).toList
  | some .parameter | some .signature => (g.container? id).toList
  | _ => []

/-- Invalidates a symbol and what covers it. -/
def invalidateUpward (g : SymbolGraph) (id : SymbolId) : SymbolGraph :=
  (Walk.reach g.coveredBy g.size [id]).foldl invalidate g

def invalidateAll (g : SymbolGraph) (ids : List SymbolId) : SymbolGraph :=
  ids.foldl invalidateUpward g

def isSynthesized (g : SymbolGraph) (id : SymbolId) : Bool :=
  ((g.get? id).map (·.isSynthesized)).getD false

/-- The symbols that were resolved to another one, or are array types of it. -/
def resolvedThrough (g : SymbolGraph) (id : SymbolId) : List SymbolId :=
  ((g.incoming id).filter fun e => e.kind.isResolution || e.kind == .arrayOf).map (·.source)

/-- A symbol and the ones around it, from the inside out. -/
def owners (g : SymbolGraph) (id : SymbolId) : List SymbolId :=
  Walk.reach (fun i => (g.container? i).toList) g.size [id]

/-- The synthesized types that hold something resolved through a symbol. They have no declaration
from which they could be resolved again. -/
def synthesizedHolders (g : SymbolGraph) (id : SymbolId) : List SymbolId :=
  ((g.resolvedThrough id).flatMap g.owners).filter g.isSynthesized

/-- All symbols that were resolved through some roots, also by way of synthesized types. -/
def allResolvedThrough (g : SymbolGraph) (roots : List SymbolId) : List SymbolId :=
  ((Walk.reach g.synthesizedHolders g.size roots).flatMap g.resolvedThrough).eraseDups

/-- The symbols with a declaration in a unit. -/
def declaredIn (g : SymbolGraph) (unit : UnitId) : List SymbolId :=
  g.ids.filter fun id => (g.declarations id).any fun d => d.unit == unit

/-- The symbols that have a name in common with a symbol declared in a unit. -/
def sharingNames (g : SymbolGraph) (unit : UnitId) : List SymbolId :=
  let names := ((g.declaredIn unit).map g.name).eraseDups
  g.ids.filter fun id => names.contains (g.name id)

/-- The symbols that need a declaration and have none, out of some candidates. -/
def orphans (g : SymbolGraph) (ids : List SymbolId) : List SymbolId :=
  ids.filter fun id => match g.get? id with
    | some s => !s.isDeclared && s.needsDeclaration
    | none => false

/-- The synthesized types that are built over a symbol. -/
def synthesizedOver (g : SymbolGraph) (id : SymbolId) : List SymbolId :=
  (g.dependents id).filter g.isSynthesized

/-- The symbols that die with some orphans. -/
def dying (g : SymbolGraph) (orphans : List SymbolId) : List SymbolId :=
  Walk.reach g.synthesizedOver g.size orphans

/-- The symbols that point at dying ones or contain them. -/
def staleAfter (g : SymbolGraph) (dying : List SymbolId) : List SymbolId :=
  dying.flatMap fun id =>
    (g.container? id).toList ++ (g.dependents id).filter (!g.isSynthesized ·)

end SymbolGraph

structure Workspace where
  graph : SymbolGraph := WellKnown.graph
  program : Program := {}
  options : Options := {}
  diagnostics : List Diagnostic := []
  deriving Inhabited

/-- A step on a workspace. Changes before a failure stay. -/
abbrev WorkspaceM := EStateM BindError Workspace

namespace Workspace

/-- A workspace without documents. -/
def ofOptions (options : Options) : Workspace := { options }

def setting (w : Workspace) : Setting := ⟨w.program, w.options⟩

/-- The reports on names that were not found. -/
def isLookupMiss (d : Diagnostic) : Bool :=
  d.code == Message.cannotFindName || d.code == Message.cannotFindNamespace

/-- Collects the declarations of a document and adds the unit to the program. -/
def addCollected (w : Workspace) (path : String) (tree : DocTree) (root : NodeRef) : Workspace :=
  let u := (CompilationUnit.ofTree w.program.nextUnit path tree root).collect
    w.options.maxCollectDepth
  { w with
    diagnostics := w.diagnostics ++ u.diagnostics
    program :=
      { w.program with nextUnit := w.program.nextUnit + 1 }.add { u with diagnostics := [] } }

/-- Invalidates what was resolved to a name that a new unit declares too, and what was not found.
The latter is reported anew if it is still missing. -/
def afterBinding (w : Workspace) (unit : UnitId) : Workspace :=
  let g := w.graph
  let affected := g.allResolvedThrough (g.sharingNames unit ++ [WellKnown.error])
  { w with
    graph := g.invalidateAll affected
    diagnostics :=
      if (g.dependents WellKnown.error).isEmpty then w.diagnostics
      else w.diagnostics.filter (!isLookupMiss ·) }

/-- Takes away what a unit contributes. Symbols without a declaration are unlinked together with the
synthesized types over them, and what pointed at them is invalidated. -/
def detach (w : Workspace) (u : CompilationUnit) : Workspace :=
  let touched := w.graph.declaredIn u.id
  let g := w.graph.forgetUnit u.id
  let dead := g.dying (g.orphans touched)
  let stale := (touched ++ g.staleAfter dead).filter (!dead.contains ·)
  { w with
    program := w.program.remove u.path
    graph := (dead.foldl SymbolGraph.unlinkAll g).invalidateAll stale
    diagnostics := w.diagnostics.filter fun d => d.file != u.path }

/-- The workspace without the unit at a path, if there is one. -/
def detachPath (w : Workspace) (path : String) : Workspace :=
  match w.program.unit? path with
  | some u => w.detach u
  | none => w

/-- Drops all documents and symbols, and starts the numbers again. -/
def reset (w : Workspace) : Workspace := ofOptions w.options

/-- The symbol of a dotted name, seen from outside all documents. -/
def find? (w : Workspace) (dotted : String) (meaning : Meaning) : Option SymbolId :=
  w.program.find? w.graph (Dotted.split dotted) meaning

end Workspace

namespace WorkspaceM

def ofBind {α : Type} (step : BindM α) : WorkspaceM α := fun w =>
  match step ⟨w.graph, w.program⟩ with
  | .ok a b => .ok a { w with graph := b.graph, program := b.program }
  | .error e b => .error e { w with graph := b.graph, program := b.program }

/-- Resolves in the program as it is. -/
def ofResolve {α : Type} (step : Setting → ResolveM α) : WorkspaceM α := fun w =>
  match step w.setting ⟨w.graph, w.diagnostics⟩ with
  | .ok a r => .ok a { w with graph := r.graph, diagnostics := r.diagnostics }
  | .error e r => .error e { w with graph := r.graph, diagnostics := r.diagnostics }

/-- Collects and binds a document that is not in the program. -/
def attach (path : String) (tree : DocTree) (root : NodeRef) : WorkspaceM UnitId := do
  let unit := (← get).program.nextUnit
  modify (·.addCollected path tree root)
  ofBind (BindM.bindUnit unit)
  modify (·.afterBinding unit)
  return unit

/-- Adds a document, in place of the one at its path if there is one. -/
def setUnit (path : String) (tree : DocTree) (root : NodeRef) : WorkspaceM UnitId := do
  modify (·.detachPath path)
  attach path tree root

def removeUnit (path : String) : WorkspaceM Unit := do
  if ((← get).program.unit? path).isNone then throw (.unknownPath path)
  modify (·.detachPath path)

end WorkspaceM

end NameBinding
