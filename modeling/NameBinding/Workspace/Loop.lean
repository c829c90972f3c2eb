import NameBinding.Workspace.Basic

/-! The loops of an invalidation, as they run. The search has a worklist of synthesized types. For what
was resolved through one of them a loop goes up to what covers it, with a stack, and another one goes
from owner to owner, with no record of where it was. No loop has a bound, so a run that comes to an end
is a derivation. -/

namespace NameBinding.SymbolGraph

/-- What a search still has to expand, the next symbol first, and all that it had to. -/
structure Expansion where
  worklist : List SymbolId
  expanded : List SymbolId
  deriving DecidableEq, Repr

/-- A synthesized type is expanded once. -/
def Expansion.visit (g : SymbolGraph) (x : SymbolId) (e : Expansion) : Expansion :=
  if g.isSynthesized x && !e.expanded.contains x then ⟨x :: e.worklist, e.expanded ++ [x]⟩ else e

/-- The loop from a symbol to its owner, to the owner of that, and so on. -/
inductive Climbs (g : SymbolGraph) : Option SymbolId → Expansion → Expansion → Prop where
  | top (e : Expansion) : Climbs g none e e
  | owner {x : SymbolId} {e e' : Expansion} (h : Climbs g (g.container? x) (e.visit g x) e') :
      Climbs g (some x) e e'

/-- The loop from the symbols of a stack to what covers them. -/
inductive Rises : List SymbolId → List SymbolId → SymbolGraph → SymbolGraph → Prop where
  | done (seen : List SymbolId) (g : SymbolGraph) : Rises [] seen g g
  | skip {x : SymbolId} {stack seen : List SymbolId} {g g' : SymbolGraph} (hx : x ∈ seen)
      (h : Rises stack seen g g') : Rises (x :: stack) seen g g'
  | invalidate {x : SymbolId} {stack seen : List SymbolId} {g g' : SymbolGraph} (hx : x ∉ seen)
      (h : Rises ((g.invalidate x).coveredBy x ++ stack) (seen ++ [x]) (g.invalidate x) g') :
      Rises (x :: stack) seen g g'

/-- What a search has changed and found so far. -/
structure Search where
  graph : SymbolGraph
  invalidated : List SymbolId
  expansion : Expansion
  deriving DecidableEq, Repr

/-- Before the first root is expanded, which is the last one of the list. -/
def Search.start (g : SymbolGraph) (roots : List SymbolId) : Search :=
  ⟨g, [], ⟨roots.reverse, roots⟩⟩

/-- The loop through what was resolved through one symbol. -/
inductive Gathers : List SymbolId → Search → Search → Prop where
  | done (s : Search) : Gathers [] s s
  | skip {x : SymbolId} {rest : List SymbolId} {s s' : Search} (hx : x ∈ s.invalidated)
      (h : Gathers rest s s') : Gathers (x :: rest) s s'
  | take {x : SymbolId} {rest : List SymbolId} {s s' : Search} {g : SymbolGraph} {e : Expansion}
      (hx : x ∉ s.invalidated) (hrises : Rises [x] [] s.graph g)
      (hclimbs : g.Climbs (some x) s.expansion e)
      (h : Gathers rest ⟨g, s.invalidated ++ [x], e⟩ s') : Gathers (x :: rest) s s'

/-- The loop through the worklist. -/
inductive Searches : Search → Search → Prop where
  | done {s : Search} (h : s.expansion.worklist = []) : Searches s s
  | expand {x : SymbolId} {rest : List SymbolId} {s s' s'' : Search}
      (hx : s.expansion.worklist = x :: rest)
      (hgathers : Gathers (s.graph.resolvedThrough x)
        { s with expansion := { s.expansion with worklist := rest } } s')
      (h : Searches s' s'') : Searches s s''

end NameBinding.SymbolGraph
