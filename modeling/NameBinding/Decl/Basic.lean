import NameBinding.Span
import NameBinding.Symbol.Kind
import NameBinding.Tree.Basic

/-! Declarations: one for each place of a document that declares a name, nested as the text is. -/

namespace NameBinding

/-- One pass over one document. A document that is read again gets a new number. -/
abbrev UnitId := Nat

/-- A declaration by its unit and its place among the declarations of that unit. -/
structure DeclId where
  unit : UnitId
  index : Nat
  deriving DecidableEq, Repr, Inhabited

inductive DeclKind where
  | script
  | module
  | dynamicModule
  | classDecl
  | interface
  | function
  | method
  | staticMethod
  | field
  | staticField
  | variable
  | argument
  | import
  | callSignature
  | constructSignature
  | indexSignature
  deriving DecidableEq, Repr, Inhabited

namespace DeclKind

instance : Enumerated DeclKind where
  all := [.script, .module, .dynamicModule, .classDecl, .interface, .function, .method,
    .staticMethod, .field, .staticField, .variable, .argument, .import, .callSignature,
    .constructSignature, .indexSignature]
  name
    | .script => "Script"
    | .module => "Module"
    | .dynamicModule => "DynamicModule"
    | .classDecl => "Class"
    | .interface => "Interface"
    | .function => "Function"
    | .method => "Method"
    | .staticMethod => "StaticMethod"
    | .field => "Field"
    | .staticField => "StaticField"
    | .variable => "Variable"
    | .argument => "Argument"
    | .import => "Import"
    | .callSignature => "CallSignature"
    | .constructSignature => "ConstructSignature"
    | .indexSignature => "IndexSignature"

/-- Declarations of the kind have declarations below them. -/
def isScope : DeclKind → Bool
  | .script | .module | .dynamicModule | .classDecl | .interface | .function | .method
  | .staticMethod | .callSignature | .constructSignature | .indexSignature => true
  | _ => false

/-- Declarations of the kind have parameters and give a signature. -/
def isSignatureBearing : DeclKind → Bool
  | .function | .method | .staticMethod | .callSignature | .constructSignature
  | .indexSignature => true
  | _ => false

/-- Call, construct and index signatures. -/
def isSignature : DeclKind → Bool
  | .callSignature | .constructSignature | .indexSignature => true
  | _ => false

end DeclKind

inductive DeclFlag where
  | exported
  | ambient
  | static
  | privateAccess
  | publicAccess
  | optional
  | constructor
  | call
  | index
  /-- Has parameters but no body. -/
  | signature
  | accessor
  /-- Has parameters and a body. -/
  | implementation
  | rest
  deriving DecidableEq, Repr

instance : Flag DeclFlag where
  all := [.exported, .ambient, .static, .privateAccess, .publicAccess, .optional, .constructor,
    .call, .index, .signature, .accessor, .implementation, .rest]
  name
    | .exported => "EXPORTED"
    | .ambient => "AMBIENT"
    | .static => "STATIC"
    | .privateAccess => "PRIVATE"
    | .publicAccess => "PUBLIC"
    | .optional => "OPTIONAL"
    | .constructor => "CONSTRUCTOR"
    | .call => "CALL"
    | .index => "INDEX"
    | .signature => "SIGNATURE"
    | .accessor => "ACCESSOR"
    | .implementation => "IMPLEMENTATION"
    | .rest => "REST"
  bit
    | .exported => 0
    | .ambient => 1
    | .static => 2
    | .privateAccess => 3
    | .publicAccess => 4
    | .optional => 5
    | .constructor => 6
    | .call => 7
    | .index => 8
    | .signature => 9
    | .accessor => 10
    | .implementation => 11
    | .rest => 12

namespace Flags

/-- The flag `g` if `f` is in the set. -/
def carry {F G : Type} [Flag F] [Flag G] (s : Flags F) (f : F) (g : G) : Flags G :=
  if s.has f then single g else ∅

theorem has_carry {F G : Type} [Flag F] [Flag G] (s : Flags F) (f : F) (g h : G) :
    (s.carry f g).has h = (s.has f && decide (Flag.bit g = Flag.bit h)) := by
  unfold carry
  split
  · next hf => rw [has_single, hf, Bool.true_and]
  · next hf => simp [hf]

/-- The flags of a declaration with the given modifiers. -/
def ofModifiers (m : Flags Modifier) : Flags DeclFlag :=
  m.carry .exported .exported ∪ m.carry .ambient .ambient ∪ m.carry .static .static ∪
    m.carry .privateAccess .privateAccess ∪ m.carry .publicAccess .publicAccess ∪
    m.carry .optional .optional ∪ m.carry .rest .rest

/-- The flags of a symbol that a declaration with the given flags makes. -/
def toSymbolFlags (d : Flags DeclFlag) : Flags SymbolFlag :=
  d.carry .exported .exported ∪ d.carry .ambient .ambient ∪ d.carry .static .static ∪
    d.carry .privateAccess .privateAccess ∪ d.carry .optional .optional ∪
    d.carry .accessor .accessor

end Flags

structure Decl where
  id : DeclId
  /-- Empty for what has no name. -/
  name : String
  kind : DeclKind
  flags : Flags DeclFlag
  span : Span
  parent : Option DeclId
  /-- The declarations directly below, in the order of the text. -/
  children : List DeclId
  /-- The node that declares. -/
  node : NodeRef
  /-- The symbol that the declaration is bound to. -/
  symbol : Option SymbolId
  deriving DecidableEq, Repr, Inhabited

namespace Decl

/-- A declaration that is not bound yet and has nothing below it. -/
def fresh (id : DeclId) (name : String) (kind : DeclKind) (flags : Flags DeclFlag) (span : Span)
    (parent : Option DeclId) (node : NodeRef) : Decl :=
  ⟨id, name, kind, flags, span, parent, [], node, none⟩

def has (d : Decl) (f : DeclFlag) : Bool := d.flags.has f

/-- Binds a declaration. The first binding stays. -/
def bindTo (d : Decl) (symbol : SymbolId) : Decl :=
  { d with symbol := d.symbol.or (some symbol) }

theorem symbol_bindTo (d : Decl) (symbol : SymbolId) :
    (d.bindTo symbol).symbol = some (d.symbol.getD symbol) := by
  cases h : d.symbol <;> simp [bindTo, h]

end Decl

end NameBinding
