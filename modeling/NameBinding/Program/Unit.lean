import NameBinding.Decl.Basic
import NameBinding.Diagnostic

/-! What is known of one document of a program: its tree, its declarations and its share of the
global names. -/

namespace NameBinding

structure CompilationUnit where
  id : UnitId
  path : String
  tree : DocTree
  root : NodeRef
  rootDecl : DeclId
  /-- The declarations, each before the ones below it. -/
  decls : Array Decl := #[]
  /-- The declarations by their nodes, newest first. -/
  declsByNode : List (NodeRef × DeclId) := []
  /-- The symbols at the top of the document by their names, oldest name first. -/
  topLevel : List (String × List SymbolId) := []
  diagnostics : List Diagnostic := []
  deriving Repr, Inhabited

namespace CompilationUnit

/-- A document before its declarations are collected. -/
def ofTree (id : UnitId) (path : String) (tree : DocTree) (root : NodeRef) : CompilationUnit where
  id := id
  path := path
  tree := tree
  root := root
  rootDecl := ⟨id, 0⟩

def decl? (u : CompilationUnit) (d : DeclId) : Option Decl :=
  if d.unit = u.id then u.decls[d.index]? else none

/-- The declaration that was collected last from a node. -/
def declOfNode? (u : CompilationUnit) (r : NodeRef) : Option DeclId := u.declsByNode.lookup r

/-- The node of a declaration, which may be missing itself. -/
def nodeOfDecl? (u : CompilationUnit) (d : DeclId) : Option NodeRef := (u.decl? d).map (·.node)

/-- The number that the next declaration gets. -/
def nextDecl (u : CompilationUnit) : DeclId := ⟨u.id, u.decls.size⟩

/-- Changes a declaration of this unit, if it has one with that number. -/
def modifyDecl (u : CompilationUnit) (d : DeclId) (f : Decl → Decl) : CompilationUnit :=
  if d.unit = u.id then { u with decls := u.decls.modify d.index f } else u

/-- Adds a declaration below its parent. -/
def addDecl (u : CompilationUnit) (d : Decl) : CompilationUnit :=
  let u := { u with
    decls := u.decls.push d
    declsByNode := (d.node, d.id) :: u.declsByNode }
  match d.parent with
  | some parent => u.modifyDecl parent fun p => { p with children := p.children ++ [d.id] }
  | none => u

/-- The symbols that a unit declares under a name at its top. -/
def topLevelSymbols (u : CompilationUnit) (name : String) : List SymbolId :=
  (u.topLevel.lookup name).getD []

/-- Enters a symbol under a name, once. -/
def enter (name : String) (symbol : SymbolId) :
    List (String × List SymbolId) → List (String × List SymbolId)
  | [] => [(name, [symbol])]
  | (other, symbols) :: rest =>
    if other = name then
      (other, if symbols.contains symbol then symbols else symbols ++ [symbol]) :: rest
    else (other, symbols) :: enter name symbol rest

def addTopLevel (u : CompilationUnit) (name : String) (symbol : SymbolId) : CompilationUnit :=
  { u with topLevel := enter name symbol u.topLevel }

/-- Follows the first child around an offset, for at most `depth` levels. -/
def innermostAt (u : CompilationUnit) (offset : Nat) : Nat → Decl → DeclId
  | 0, d => d.id
  | depth + 1, d =>
    match (d.children.filterMap u.decl?).find? fun child => child.span.contains offset with
    | some child => u.innermostAt offset depth child
    | none => d.id

/-- The innermost declaration around an offset. No declaration has more levels below it than the
unit has declarations. -/
def declAt? (u : CompilationUnit) (offset : Nat) : Option DeclId :=
  match u.decl? u.rootDecl with
  | some root => if root.span.contains offset then
      some (u.innermostAt offset u.decls.size root) else none
  | none => none

theorem lookup_enter (name other : String) (symbol : SymbolId)
    (table : List (String × List SymbolId)) :
    ((enter name symbol table).lookup other).getD [] =
      if other = name ∧ symbol ∉ (table.lookup name).getD [] then
        (table.lookup name).getD [] ++ [symbol]
      else (table.lookup other).getD [] := by
  induction table with
  | nil =>
    by_cases h : other = name
    · simp [enter, h]
    · simp [enter, List.lookup_cons, h, beq_eq_false_iff_ne.mpr h]
  | cons entry rest ih =>
    obtain ⟨key, symbols⟩ := entry
    by_cases hk : key = name
    · subst hk
      by_cases ho : other = key
      · subst ho
        by_cases hm : symbol ∈ symbols <;> simp [enter, hm]
      · simp [enter, List.lookup_cons, ho, beq_eq_false_iff_ne.mpr ho]
    · have hkn : (name == key) = false := beq_eq_false_iff_ne.mpr fun h => hk h.symm
      by_cases ho : other = key
      · subst ho
        simp [enter, List.lookup_cons, hk]
      · simp only [enter, hk, if_false, List.lookup_cons, beq_eq_false_iff_ne.mpr ho, ih, hkn]

end CompilationUnit

end NameBinding
