import NameBinding.Graph.Edit
import NameBinding.Graph.Query

/-! A graph with the answers that it gave. When an edge comes or goes, the answers about its two ends
are forgotten, and all others are kept. -/

namespace NameBinding

/-- The questions about one symbol whose answers are kept. -/
inductive GraphQuery where
  | container
  | type
  | members
  | publicMembers
  | staticMembers
  | extendedTypes
  | implementedTypes
  | callSignatures
  | constructSignatures
  | indexSignatures
  | definition
  | parameters
  | returnType
  deriving DecidableEq, Repr

namespace SymbolGraph

/-- The answer from the edges. A question for one symbol answers with at most one. -/
def answer (g : SymbolGraph) (id : SymbolId) : GraphQuery → List SymbolId
  | .container => (g.container? id).toList
  | .type => (g.type? id).toList
  | .members => g.members id
  | .publicMembers => g.publicMembers id
  | .staticMembers => g.staticMembers id
  | .extendedTypes => g.extendedTypes id
  | .implementedTypes => g.implementedTypes id
  | .callSignatures => g.callSignatures id
  | .constructSignatures => g.constructSignatures id
  | .indexSignatures => g.indexSignatures id
  | .definition => (g.definition? id).toList
  | .parameters => g.parameters id
  | .returnType => (g.returnType? id).toList

end SymbolGraph

/-- The answers about one symbol. -/
abbrev Answers := List (GraphQuery × List SymbolId)

structure MemoGraph where
  graph : SymbolGraph
  /-- The answers about each symbol, by its position. -/
  answers : Array Answers := #[]

namespace MemoGraph

/-- A graph that gave no answers yet. -/
def ofGraph (g : SymbolGraph) : MemoGraph := ⟨g, Array.replicate g.size []⟩

/-- The answer to a question, and the graph that remembers it. Nothing is remembered of symbols that
do not exist. -/
def ask (m : MemoGraph) (id : SymbolId) (q : GraphQuery) : List SymbolId × MemoGraph :=
  match (m.answers[id]?.getD []).lookup q with
  | some answer => (answer, m)
  | none =>
    let answer := m.graph.answer id q
    (answer, { m with answers := m.answers.modify id ((q, answer) :: ·) })

/-- Forgets all answers about a symbol. -/
def forget (m : MemoGraph) (id : SymbolId) : MemoGraph :=
  { m with answers := m.answers.modify id fun _ => [] }

/-- Adds a symbol, about which nothing was asked yet. -/
def alloc (m : MemoGraph) (name : String) (kind : SymbolKind) (flags : Flags SymbolFlag) :
    MemoGraph where
  graph := m.graph.alloc name kind flags
  answers := m.answers.push []

/-- Lists an edge at both ends, unless it is there. -/
def insertEdge (m : MemoGraph) (e : Edge) : MemoGraph :=
  if m.graph.hasEdge e then m
  else ({ m with graph := m.graph.insertEdge e }.forget e.source).forget e.target

/-- Takes an edge from both ends. The answers about an end stay if the edge is not listed there. -/
def eraseEdge (m : MemoGraph) (e : Edge) : MemoGraph :=
  let atSource := (m.graph.outgoing e.source).contains e
  let atTarget := (m.graph.incoming e.target).contains e
  let m := { m with graph := m.graph.eraseEdge e }
  let m := if atSource then m.forget e.source else m
  if atTarget then m.forget e.target else m

/-- Adds an edge, for a membership edge also the edge back. -/
def addEdge (m : MemoGraph) (e : Edge) : MemoGraph :=
  if e.kind.isMembership then (m.insertEdge e).insertEdge e.backward else m.insertEdge e

/-- Removes an edge and what goes with it. -/
def removeEdge (m : MemoGraph) (e : Edge) : MemoGraph :=
  if m.graph.hasEdge e then
    let m := m.eraseEdge e
    if e.kind.isMembership then
      if (m.graph.memberships e.source e.target).isEmpty then m.eraseEdge e.backward else m
    else if e.kind = .containedBy then
      (m.graph.memberships e.target e.source).foldl eraseEdge m
    else m
  else m

def removeTargets (m : MemoGraph) (id : SymbolId) (kind : EdgeKind) (ends : List SymbolId) :
    MemoGraph :=
  ends.foldl (fun m target => m.removeEdge ⟨id, target, kind⟩) m

def removeOutgoing (m : MemoGraph) (id : SymbolId) (kind : EdgeKind) : MemoGraph :=
  m.removeTargets id kind (m.graph.targets id kind)

def unlinkAll (m : MemoGraph) (id : SymbolId) : MemoGraph :=
  (m.graph.outgoing id ++ m.graph.incoming id).foldl removeEdge m

/-- Gives up what is known of a symbol, unless it is there from the start. -/
def invalidate (m : MemoGraph) (id : SymbolId) : MemoGraph :=
  if m.graph.has id .wellKnown then m
  else { m with graph := m.graph.invalidate id }.forget id

end MemoGraph

/-- A step on a graph with answers that can fail. -/
abbrev MemoM := EStateM BindError MemoGraph

namespace MemoM

def require (id : SymbolId) : MemoM Unit := do
  if ((← get).graph.get? id).isNone then throw (.unknownSymbol id)

/-- Adds an edge between existing symbols and says whether it is new. -/
def link (source target : SymbolId) (kind : EdgeKind) : MemoM Bool := do
  require target
  require source
  let e : Edge := ⟨source, target, kind⟩
  let isNew := !(← get).graph.hasEdge e
  modify (·.addEdge e)
  return isNew

/-- Makes an edge the only one of its kind that leaves its source. -/
def setSingle (source target : SymbolId) (kind : EdgeKind) : MemoM Unit := do
  require source
  modify fun m =>
    m.removeTargets source kind ((m.graph.targets source kind).filter (· != target))
  let _ ← link source target kind

/-- Gives a class its instance side, which it can get only once. -/
def setInstanceType (cls inst : SymbolId) : MemoM Unit := do
  if ((← get).graph.instanceType? cls).isSome then throw (.duplicateInstanceType cls)
  let _ ← link cls inst .instanceType

/-- An edit of a graph with answers. -/
def run : GraphEdit → MemoM GraphEdit.Answer
  | .alloc name kind flags => modifyGet fun m =>
      (.made m.graph.nextId, m.alloc name kind flags)
  | .link e => return .changed (← link e.source e.target e.kind)
  | .unlink e => modifyGet fun m => (.changed (m.graph.hasEdge e), m.removeEdge e)
  | .unlinkOutgoing id kind => modifyGet fun m =>
      (.removed (m.graph.targets id kind), m.removeOutgoing id kind)
  | .setSingle e => do
    setSingle e.source e.target e.kind
    return .done
  | .unlinkAll id => do
    modify (·.unlinkAll id)
    return .done
  | .setInstanceType cls inst => do
    setInstanceType cls inst
    return .done
  | .invalidate id => do
    modify (·.invalidate id)
    return .done

end MemoM

namespace MemoGraph

/-- The graph after an edit, also after one that fails. -/
def edit (m : MemoGraph) (e : GraphEdit) : MemoGraph :=
  match MemoM.run e m with
  | .ok _ m => m
  | .error _ m => m

end MemoGraph

end NameBinding
