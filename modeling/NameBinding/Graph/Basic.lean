import NameBinding.BindError
import NameBinding.Symbol.Edge

/-! The symbol graph. Every edge is listed twice, at its source and at its target, in the order in
which the edges came. -/

namespace NameBinding

/-- A named entity. Several declarations can contribute to one symbol. -/
structure Symbol where
  name : String
  kind : SymbolKind
  flags : Flags SymbolFlag
  /-- The contributing declarations in the order in which they were bound. -/
  declarations : List DeclId := []
  outgoing : List Edge := []
  incoming : List Edge := []
  /-- The edges that come from resolving names are up to date. -/
  resolved : Bool := false
  deriving DecidableEq, Repr, Inhabited

namespace Symbol

def has (s : Symbol) (f : SymbolFlag) : Bool := s.flags.has f

/-- Where the edges of a kind lead, in order. -/
def targets (s : Symbol) (kind : EdgeKind) : List SymbolId :=
  (s.outgoing.filter fun e => e.kind == kind).map (·.target)

/-- Where the edges of a kind come from, in order. -/
def sources (s : Symbol) (kind : EdgeKind) : List SymbolId :=
  (s.incoming.filter fun e => e.kind == kind).map (·.source)

def firstTarget (s : Symbol) (kind : EdgeKind) : Option SymbolId := (s.targets kind).head?

def firstSource (s : Symbol) (kind : EdgeKind) : Option SymbolId := (s.sources kind).head?

/-- Some declaration contributes to the symbol. -/
def isDeclared (s : Symbol) : Bool := !s.declarations.isEmpty

/-- The symbol has edges. -/
def isLinked (s : Symbol) : Bool := !s.outgoing.isEmpty || !s.incoming.isEmpty

/-- The symbol was made while types were resolved. -/
def isSynthesized (s : Symbol) : Bool := s.has .synthesized && !s.has .wellKnown

/-- The symbol needs a declaration to live. -/
def needsDeclaration (s : Symbol) : Bool := !s.has .wellKnown && !s.has .synthesized

end Symbol

structure SymbolGraph where
  symbols : Array Symbol := #[]
  deriving DecidableEq, Repr, Inhabited

namespace SymbolGraph

def empty : SymbolGraph := {}

def size (g : SymbolGraph) : Nat := g.symbols.size

def isEmpty (g : SymbolGraph) : Bool := g.symbols.isEmpty

/-- All symbols in the order in which they were made. -/
def ids (g : SymbolGraph) : List SymbolId := List.range g.size

def get? (g : SymbolGraph) (id : SymbolId) : Option Symbol := g.symbols[id]?

/-- The name of a symbol, and nothing for one that does not exist. -/
def name (g : SymbolGraph) (id : SymbolId) : String := ((g.get? id).map (·.name)).getD ""

def kind? (g : SymbolGraph) (id : SymbolId) : Option SymbolKind := (g.get? id).map (·.kind)

def has (g : SymbolGraph) (id : SymbolId) (f : SymbolFlag) : Bool :=
  ((g.get? id).map (·.has f)).getD false

def declarations (g : SymbolGraph) (id : SymbolId) : List DeclId :=
  ((g.get? id).map (·.declarations)).getD []

def outgoing (g : SymbolGraph) (id : SymbolId) : List Edge :=
  ((g.get? id).map (·.outgoing)).getD []

def incoming (g : SymbolGraph) (id : SymbolId) : List Edge :=
  ((g.get? id).map (·.incoming)).getD []

def isResolved (g : SymbolGraph) (id : SymbolId) : Bool :=
  ((g.get? id).map (·.resolved)).getD false

def modify (g : SymbolGraph) (id : SymbolId) (f : Symbol → Symbol) : SymbolGraph :=
  { g with symbols := g.symbols.modify id f }

/-- The position that the next symbol gets. -/
def nextId (g : SymbolGraph) : SymbolId := g.size

/-- Adds a symbol without declarations and edges. Its position is `nextId`. -/
def alloc (g : SymbolGraph) (name : String) (kind : SymbolKind) (flags : Flags SymbolFlag) :
    SymbolGraph :=
  { g with symbols := g.symbols.push { name, kind, flags } }

def setResolved (g : SymbolGraph) (id : SymbolId) (resolved : Bool) : SymbolGraph :=
  g.modify id fun s => { s with resolved }

/-- Notes that a declaration contributes to a symbol, once. -/
def declare (g : SymbolGraph) (id : SymbolId) (decl : DeclId) : SymbolGraph :=
  g.modify id fun s =>
    if decl ∈ s.declarations then s else { s with declarations := s.declarations ++ [decl] }

/-- Forgets the declarations of a unit. -/
def forgetUnit (g : SymbolGraph) (unit : UnitId) : SymbolGraph :=
  { g with symbols := g.symbols.map fun s =>
      { s with declarations := s.declarations.filter fun d => d.unit != unit } }

/-- Symbols that are there from the start keep their state. Of others the resolution is given up,
while their edges stay until they are resolved again. -/
def invalidate (g : SymbolGraph) (id : SymbolId) : SymbolGraph :=
  g.modify id fun s => if s.has .wellKnown then s else { s with resolved := false }

@[simp] theorem size_modify (g : SymbolGraph) (id : SymbolId) (f : Symbol → Symbol) :
    (g.modify id f).size = g.size := by simp [modify, size]

theorem get?_modify (g : SymbolGraph) (id : SymbolId) (f : Symbol → Symbol) (x : SymbolId) :
    (g.modify id f).get? x = if id = x then (g.get? x).map f else g.get? x := by
  simp [modify, get?, Array.getElem?_modify]

@[simp] theorem size_alloc (g : SymbolGraph) (name : String) (kind : SymbolKind)
    (flags : Flags SymbolFlag) : (g.alloc name kind flags).size = g.size + 1 := by
  simp [alloc, size]

theorem get?_alloc (g : SymbolGraph) (name : String) (kind : SymbolKind)
    (flags : Flags SymbolFlag) (x : SymbolId) :
    (g.alloc name kind flags).get? x =
      if x = g.nextId then some { name, kind, flags } else g.get? x := by
  by_cases h : x = g.symbols.size <;> simp [alloc, get?, nextId, size, Array.getElem?_push, h]

theorem get?_eq_none_iff (g : SymbolGraph) (id : SymbolId) :
    g.get? id = none ↔ g.size ≤ id := by simp [get?, size]

theorem isSome_get? (g : SymbolGraph) (id : SymbolId) :
    (g.get? id).isSome = decide (id < g.size) := by
  by_cases h : id < g.symbols.size <;> simp [get?, size, h]

@[simp] theorem outgoing_alloc (g : SymbolGraph) (name : String) (kind : SymbolKind)
    (flags : Flags SymbolFlag) (x : SymbolId) :
    (g.alloc name kind flags).outgoing x = g.outgoing x := by
  by_cases h : x = g.size
  · simp [outgoing, get?_alloc, nextId, h, (get?_eq_none_iff g g.size).mpr]
  · simp [outgoing, get?_alloc, nextId, h]

@[simp] theorem incoming_alloc (g : SymbolGraph) (name : String) (kind : SymbolKind)
    (flags : Flags SymbolFlag) (x : SymbolId) :
    (g.alloc name kind flags).incoming x = g.incoming x := by
  by_cases h : x = g.size
  · simp [incoming, get?_alloc, nextId, h, (get?_eq_none_iff g g.size).mpr]
  · simp [incoming, get?_alloc, nextId, h]

end SymbolGraph

end NameBinding
