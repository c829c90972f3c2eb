import NameBinding.Graph.Basic
import NameBinding.Tree.Kind

/-! The symbols that every graph has from the start: the built-in types and the symbol that stands
in for what could not be found. -/

namespace NameBinding.WellKnown

/-- The built-in types, in the order of their symbols. -/
def keywords : List NodeKind :=
  [.anyKeyword, .numberKeyword, .stringKeyword, .booleanKeyword, .voidKeyword, .nullKeyword,
   .undefinedKeyword]

/-- The type of what has no annotation. -/
def any : SymbolId := 0

/-- Stands in for what could not be found. -/
def error : SymbolId := 7

/-- The number of symbols that are there from the start. -/
def count : Nat := 8

/-- The symbol of a built-in type. -/
def ofKeyword? (kind : NodeKind) : Option SymbolId := keywords.findIdx? (· == kind)

def contains (id : SymbolId) : Bool := decide (id < count)

/-- The graph that holds these symbols alone. -/
def graph : SymbolGraph :=
  (keywords.foldl (fun g kind => g.alloc (kind.keywordText.getD "") .primitive
    (Flags.single .wellKnown)) SymbolGraph.empty).alloc "error" .error (Flags.single .wellKnown)

@[simp] theorem size_graph : graph.size = count := rfl

end NameBinding.WellKnown
