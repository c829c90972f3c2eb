import NameBinding.Workspace.Basic

/-! Checking a workspace for what never ought to be wrong. -/

namespace NameBinding

inductive Violation where
  /-- An edge that one of its ends does not list. -/
  | oneSidedEdge (e : Edge)
  /-- A membership edge without exactly one edge back. -/
  | unpairedMembership (container member : SymbolId)
  /-- A class without an instance side of its own. -/
  | brokenClass (cls : SymbolId) (name : String)
  | duplicateArrayType (element : SymbolId) (count : Nat)
  /-- A symbol that has edges but no declaration left. -/
  | orphan (symbol : SymbolId) (name : String)
  /-- A symbol lists a declaration that the program does not have. -/
  | unknownDecl (symbol : SymbolId) (decl : DeclId)
  /-- A declaration is bound to a symbol that does not list it. -/
  | unlistedDecl (decl : DeclId) (symbol : SymbolId)
  deriving DecidableEq, Repr

namespace SymbolGraph

def isListedAtTarget (g : SymbolGraph) (e : Edge) : Bool := (g.incoming e.target).contains e

def isPaired (g : SymbolGraph) (container member : SymbolId) : Bool :=
  (g.targets member .containedBy).count container == 1

def outgoingViolations (g : SymbolGraph) (id : SymbolId) (s : Symbol) : List Violation :=
  s.outgoing.flatMap fun e =>
    (if g.isListedAtTarget e then [] else [.oneSidedEdge e]) ++
    if e.kind.isMembership && !g.isPaired id e.target then [.unpairedMembership id e.target]
    else []

def incomingViolations (g : SymbolGraph) (s : Symbol) : List Violation :=
  s.incoming.flatMap fun e => if g.hasEdge e then [] else [.oneSidedEdge e]

/-- A class has exactly one instance side, and that is another symbol of the right kind. -/
def isDualClass (g : SymbolGraph) (id : SymbolId) (s : Symbol) : Bool :=
  match s.targets .instanceType with
  | [inst] => inst != id && g.kind? inst == some .instanceType
  | _ => false

def classViolations (g : SymbolGraph) (id : SymbolId) (s : Symbol) : List Violation :=
  if s.kind == .classType && s.isDeclared && !g.isDualClass id s then [.brokenClass id s.name]
  else []

def arrayViolations (id : SymbolId) (s : Symbol) : List Violation :=
  let count := (s.sources .arrayOf).length
  if count > 1 then [.duplicateArrayType id count] else []

def orphanViolations (id : SymbolId) (s : Symbol) : List Violation :=
  if !s.isDeclared && s.isLinked && s.needsDeclaration then [.orphan id s.name] else []

end SymbolGraph

namespace Workspace

open SymbolGraph

def declarationViolations (w : Workspace) (id : SymbolId) (s : Symbol) : List Violation :=
  s.declarations.flatMap fun d =>
    if (w.program.decl? d).isNone then [.unknownDecl id d] else []

def symbolViolations (w : Workspace) (id : SymbolId) : List Violation :=
  match w.graph.get? id with
  | none => []
  | some s =>
    w.graph.outgoingViolations id s ++ w.graph.incomingViolations s ++
      w.graph.classViolations id s ++ arrayViolations id s ++ orphanViolations id s ++
      w.declarationViolations id s

def unitViolations (w : Workspace) (u : CompilationUnit) : List Violation :=
  u.decls.toList.flatMap fun d => match d.symbol with
    | some symbol =>
      if (w.graph.declarations symbol).contains d.id then [] else [.unlistedDecl d.id symbol]
    | none => []

/-- Everything that is wrong, by symbols and then by units. -/
def violations (w : Workspace) : List Violation :=
  w.graph.ids.flatMap w.symbolViolations ++ w.program.units.flatMap w.unitViolations

end Workspace

end NameBinding
