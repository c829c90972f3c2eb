import NameBinding.Decl.Basic

/-! Requests that cannot be met. Mistakes in a program are diagnostics and not errors. -/

namespace NameBinding

inductive BindError where
  /-- An element type has several array types. -/
  | duplicateArrayType (element : SymbolId) (count : Nat)
  /-- A class has no instance side. -/
  | missingInstanceType (cls : SymbolId)
  /-- A class was to get a second instance side. -/
  | duplicateInstanceType (cls : SymbolId)
  | unknownPath (path : String)
  | unknownUnit (unit : UnitId)
  | unknownDecl (decl : DeclId)
  | unknownSymbol (symbol : SymbolId)
  /-- A type node lies inside itself. -/
  | endlessTypeNode (node : NodeRef)
  /-- The bases of a type go on for longer than there are symbols. -/
  | endlessHeritage (symbol : SymbolId)
  deriving DecidableEq, Repr

namespace BindError

def message : BindError → String
  | .duplicateArrayType element count => "symbol " ++ Nat.repr element ++ " has " ++
      Nat.repr count ++ " array specializations, expected at most one"
  | .missingInstanceType cls => "class symbol " ++ Nat.repr cls ++ " has no instance type"
  | .duplicateInstanceType cls =>
      "class symbol " ++ Nat.repr cls ++ " already has an instance type"
  | .unknownPath path => "no compilation unit named '" ++ path ++ "'"
  | .unknownUnit unit => "no compilation unit with id " ++ Nat.repr unit
  | .unknownDecl decl =>
      "no declaration " ++ Nat.repr decl.index ++ " in unit " ++ Nat.repr decl.unit
  | .unknownSymbol symbol => "no symbol with id " ++ Nat.repr symbol
  | .endlessTypeNode node => "type node " ++ Nat.repr node.toNumber ++ " lies inside itself"
  | .endlessHeritage symbol => "the bases of symbol " ++ Nat.repr symbol ++ " do not end"

end BindError

end NameBinding
