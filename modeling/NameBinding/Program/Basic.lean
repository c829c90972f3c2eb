import NameBinding.Program.Unit

/-! A program: documents with different paths, in the order in which they came. -/

namespace NameBinding

structure Program where
  units : List CompilationUnit := []
  /-- The number of the next pass over a document. -/
  nextUnit : UnitId := 0
  deriving Repr, Inhabited

namespace Program

def unit? (p : Program) (path : String) : Option CompilationUnit :=
  p.units.find? fun u => u.path == path

def unitById? (p : Program) (id : UnitId) : Option CompilationUnit :=
  p.units.find? fun u => u.id == id

/-- Adds a unit after the others. -/
def add (p : Program) (u : CompilationUnit) : Program := { p with units := p.units ++ [u] }

/-- The program without the unit at a path. -/
def remove (p : Program) (path : String) : Program :=
  { p with units := p.units.filter fun u => u.path != path }

/-- Changes the unit with a number. -/
def modifyUnit (p : Program) (id : UnitId) (f : CompilationUnit → CompilationUnit) : Program :=
  { p with units := p.units.map fun u => if u.id = id then f u else u }

def decl? (p : Program) (d : DeclId) : Option Decl := (p.unitById? d.unit).bind (·.decl? d)

def paths (p : Program) : List String := p.units.map (·.path)

/-- The symbols with a name at the top of some unit, in the order of the units, each once. -/
def globalSymbols (p : Program) (name : String) : List SymbolId :=
  (p.units.flatMap (·.topLevelSymbols name)).eraseDups

end Program

end NameBinding
