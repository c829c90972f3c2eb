import NameBinding.Text.Json
import NameBinding.Workspace.Basic

/-! Snapshots of the living part of a graph, and their shape, in which positions and orders do not
matter. -/

namespace NameBinding

structure EdgeView where
  kind : EdgeKind
  target : SymbolId
  targetName : String
  deriving DecidableEq, Repr

structure SymbolView where
  id : SymbolId
  name : String
  kind : SymbolKind
  flags : Flags SymbolFlag
  /-- The number of declarations. -/
  declarations : Nat
  edges : List EdgeView
  deriving DecidableEq, Repr

structure Snapshot where
  /-- The paths of the documents. -/
  units : List String
  symbols : List SymbolView
  deriving DecidableEq, Repr

namespace Snapshot

/-- The kind of the symbol with a position. Of several with that position the last one counts. -/
def kindOf? (s : Snapshot) (id : SymbolId) : Option SymbolKind :=
  (s.symbols.reverse.find? fun v => v.id == id).map (·.kind)

def edgeLine (s : Snapshot) (e : EdgeView) : String :=
  Enumerated.name e.kind ++ "->" ++ ((s.kindOf? e.target).map Enumerated.name).getD "?" ++ ":" ++
    e.targetName

/-- Lines in ascending order of their characters. -/
def sortLines (lines : List String) : List String := lines.mergeSort fun a b => decide (a ≤ b)

def symbolLine (s : Snapshot) (v : SymbolView) : String :=
  Enumerated.name v.kind ++ " " ++ v.name ++ " " ++ v.flags.symbolText ++ " decls=" ++
    Nat.repr v.declarations ++ " [" ++ ", ".intercalate (sortLines (v.edges.map s.edgeLine)) ++ "]"

/-- One line for each symbol, without positions, in ascending order. -/
def shape (s : Snapshot) : List String := sortLines (s.symbols.map s.symbolLine)

def edgeJson (e : EdgeView) : JsonValue :=
  .object [("kind", .string (Enumerated.name e.kind)), ("target", .number e.target),
    ("target_name", .string e.targetName)]

def symbolJson (v : SymbolView) : JsonValue :=
  .object [("id", .number v.id), ("name", .string v.name),
    ("kind", .string (Enumerated.name v.kind)), ("flags", .string v.flags.text),
    ("declarations", .number v.declarations), ("edges", .array (v.edges.map edgeJson))]

def toJson (s : Snapshot) : JsonValue :=
  .object [("units", .array (s.units.map .string)), ("symbols", .array (s.symbols.map symbolJson))]

end Snapshot

namespace SymbolGraph

/-- A symbol lives if something declares it, if it points at something, or if it was there from the
start. -/
def isLive (s : Symbol) : Bool := s.isDeclared || !s.outgoing.isEmpty || s.has .wellKnown

def view (g : SymbolGraph) (id : SymbolId) (s : Symbol) : SymbolView where
  id := id
  name := s.name
  kind := s.kind
  flags := s.flags
  declarations := s.declarations.length
  edges := s.outgoing.map fun e => ⟨e.kind, e.target, g.name e.target⟩

/-- The living symbols by their positions. -/
def views (g : SymbolGraph) : List SymbolView :=
  g.ids.filterMap fun id => match g.get? id with
    | some s => if isLive s then some (g.view id s) else none
    | none => none

end SymbolGraph

namespace Workspace

def snapshot (w : Workspace) : Snapshot := ⟨w.program.paths, w.graph.views⟩

end Workspace

end NameBinding
