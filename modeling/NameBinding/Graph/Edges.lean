import NameBinding.Graph.Basic

/-! Adding and removing edges. An edge from a container to a member and the edge back come and go
together. -/

namespace NameBinding

/-- A step on a graph that can fail. Changes before the failure stay. -/
abbrev GraphM := EStateM BindError SymbolGraph

namespace SymbolGraph

def hasEdge (g : SymbolGraph) (e : Edge) : Bool := (g.outgoing e.source).contains e

/-- Lists an edge at both ends, unless it is there. -/
def insertEdge (g : SymbolGraph) (e : Edge) : SymbolGraph :=
  if g.hasEdge e then g
  else
    (g.modify e.source fun s => { s with outgoing := s.outgoing ++ [e] }).modify e.target
      fun s => { s with incoming := s.incoming ++ [e] }

/-- Takes an edge from both ends. -/
def eraseEdge (g : SymbolGraph) (e : Edge) : SymbolGraph :=
  (g.modify e.source fun s => { s with outgoing := s.outgoing.erase e }).modify e.target
    fun s => { s with incoming := s.incoming.erase e }

/-- Adds an edge, for a membership edge also the edge back. -/
def addEdge (g : SymbolGraph) (e : Edge) : SymbolGraph :=
  if e.kind.isMembership then (g.insertEdge e).insertEdge e.backward else g.insertEdge e

/-- The membership edges from one symbol to another. -/
def memberships (g : SymbolGraph) (container member : SymbolId) : List Edge :=
  (g.outgoing container).filter fun e => e.target == member && e.kind.isMembership

/-- Removes an edge. The edge back goes with the last membership edge, and all membership edges go
with the edge back. -/
def removeEdge (g : SymbolGraph) (e : Edge) : SymbolGraph :=
  if g.hasEdge e then
    let g := g.eraseEdge e
    if e.kind.isMembership then
      if (g.memberships e.source e.target).isEmpty then g.eraseEdge e.backward else g
    else if e.kind = .containedBy then
      (g.memberships e.target e.source).foldl eraseEdge g
    else g
  else g

/-- Where the edges of a kind lead from a symbol. -/
def targets (g : SymbolGraph) (id : SymbolId) (kind : EdgeKind) : List SymbolId :=
  ((g.get? id).map (·.targets kind)).getD []

/-- Where the edges of a kind come from. -/
def sources (g : SymbolGraph) (id : SymbolId) (kind : EdgeKind) : List SymbolId :=
  ((g.get? id).map (·.sources kind)).getD []

def firstTarget (g : SymbolGraph) (id : SymbolId) (kind : EdgeKind) : Option SymbolId :=
  (g.targets id kind).head?

def firstSource (g : SymbolGraph) (id : SymbolId) (kind : EdgeKind) : Option SymbolId :=
  (g.sources id kind).head?

/-- Removes the edges of a kind from a symbol to the given targets. -/
def removeTargets (g : SymbolGraph) (id : SymbolId) (kind : EdgeKind) (ends : List SymbolId) :
    SymbolGraph :=
  ends.foldl (fun g target => g.removeEdge ⟨id, target, kind⟩) g

/-- Removes all edges of a kind that leave a symbol. -/
def removeOutgoing (g : SymbolGraph) (id : SymbolId) (kind : EdgeKind) : SymbolGraph :=
  g.removeTargets id kind (g.targets id kind)

/-- Removes every edge that starts or ends at a symbol. -/
def unlinkAll (g : SymbolGraph) (id : SymbolId) : SymbolGraph :=
  (g.outgoing id ++ g.incoming id).foldl removeEdge g

/-- The instance side of a class. -/
def instanceType? (g : SymbolGraph) (id : SymbolId) : Option SymbolId :=
  g.firstTarget id .instanceType

@[simp] theorem size_insertEdge (g : SymbolGraph) (e : Edge) : (g.insertEdge e).size = g.size := by
  unfold insertEdge
  split <;> simp

@[simp] theorem size_eraseEdge (g : SymbolGraph) (e : Edge) : (g.eraseEdge e).size = g.size := by
  simp [eraseEdge]

/-- A new edge comes after the others that leave its source. -/
theorem outgoing_insertEdge (g : SymbolGraph) (e : Edge) (id : SymbolId) :
    (g.insertEdge e).outgoing id =
      if id = e.source ∧ id < g.size ∧ ¬g.hasEdge e then g.outgoing id ++ [e]
      else g.outgoing id := by
  have hsize := isSome_get? g id
  by_cases he : g.hasEdge e
  · simp [insertEdge, he]
  · simp only [insertEdge, he, if_false, Bool.false_eq_true, outgoing, get?_modify]
    cases h : g.get? id <;> grind

/-- A new edge comes after the others that reach its target. -/
theorem incoming_insertEdge (g : SymbolGraph) (e : Edge) (id : SymbolId) :
    (g.insertEdge e).incoming id =
      if id = e.target ∧ id < g.size ∧ ¬g.hasEdge e then g.incoming id ++ [e]
      else g.incoming id := by
  have hsize := isSome_get? g id
  by_cases he : g.hasEdge e
  · simp [insertEdge, he]
  · simp only [insertEdge, he, if_false, Bool.false_eq_true, incoming, get?_modify]
    cases h : g.get? id <;> grind

theorem outgoing_eraseEdge (g : SymbolGraph) (e : Edge) (id : SymbolId) :
    (g.eraseEdge e).outgoing id =
      if id = e.source then (g.outgoing id).erase e else g.outgoing id := by
  simp only [eraseEdge, outgoing, get?_modify]
  cases g.get? id <;> grind

theorem incoming_eraseEdge (g : SymbolGraph) (e : Edge) (id : SymbolId) :
    (g.eraseEdge e).incoming id =
      if id = e.target then (g.incoming id).erase e else g.incoming id := by
  simp only [eraseEdge, incoming, get?_modify]
  cases g.get? id <;> grind

end SymbolGraph

namespace GraphM

open SymbolGraph

def require (id : SymbolId) : GraphM Unit := do
  if ((← get).get? id).isNone then throw (.unknownSymbol id)

/-- Adds an edge between existing symbols and says whether it is new. -/
def link (source target : SymbolId) (kind : EdgeKind) : GraphM Bool := do
  require target
  require source
  let e : Edge := ⟨source, target, kind⟩
  let isNew := !(← get).hasEdge e
  modify (·.addEdge e)
  return isNew

/-- Makes an edge the only one of its kind that leaves its source. -/
def setSingle (source target : SymbolId) (kind : EdgeKind) : GraphM Unit := do
  require source
  modify fun g => g.removeTargets source kind ((g.targets source kind).filter (· != target))
  let _ ← link source target kind

/-- Gives a class its instance side, which it can get only once. -/
def setInstanceType (cls inst : SymbolId) : GraphM Unit := do
  if ((← get).instanceType? cls).isSome then throw (.duplicateInstanceType cls)
  let _ ← link cls inst .instanceType

/-- Adds a symbol and returns its position. -/
def alloc (name : String) (kind : SymbolKind) (flags : Flags SymbolFlag) : GraphM SymbolId :=
  modifyGet fun g => (g.nextId, g.alloc name kind flags)

def declare (id : SymbolId) (decl : DeclId) : GraphM Unit := do
  require id
  modify (·.declare id decl)

end GraphM

end NameBinding
