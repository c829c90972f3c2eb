import NameBinding.Flags

/-! The kinds and flags of symbols, and the meanings under which a name is looked up. -/

namespace NameBinding

/-- The position of a symbol in its graph. Positions are given out in order and never again. -/
abbrev SymbolId := Nat

inductive SymbolKind where
  | primitive
  /-- Stands in for what could not be found. -/
  | error
  | module
  /-- A module that is named by a text. -/
  | dynamicModule
  /-- The static side of a class. -/
  | classType
  /-- The instance side of a class. -/
  | instanceType
  | interface
  /-- An object type without a name. -/
  | typeLiteral
  | array
  | function
  | method
  | signature
  | field
  | variable
  | parameter
  /-- A name for another symbol. -/
  | alias
  deriving DecidableEq, Repr, Inhabited

namespace SymbolKind

instance : Enumerated SymbolKind where
  all := [.primitive, .error, .module, .dynamicModule, .classType, .instanceType, .interface,
    .typeLiteral, .array, .function, .method, .signature, .field, .variable, .parameter,
    .alias]
  name
    | .primitive => "Primitive"
    | .error => "Error"
    | .module => "Module"
    | .dynamicModule => "DynamicModule"
    | .classType => "Class"
    | .instanceType => "InstanceType"
    | .interface => "Interface"
    | .typeLiteral => "TypeLiteral"
    | .array => "Array"
    | .function => "Function"
    | .method => "Method"
    | .signature => "Signature"
    | .field => "Field"
    | .variable => "Variable"
    | .parameter => "Parameter"
    | .alias => "Alias"

/-- The kind denotes a type when it is named as one. -/
def isType : SymbolKind → Bool
  | .primitive | .error | .classType | .instanceType | .interface | .typeLiteral | .array => true
  | _ => false

/-- The kind can hold named children. -/
def isContainer : SymbolKind → Bool
  | .module | .dynamicModule | .classType | .instanceType | .interface | .typeLiteral | .function
  | .method => true
  | _ => false

/-- The members of the kind are inherited. -/
def isObjectType : SymbolKind → Bool
  | .instanceType | .interface | .typeLiteral => true
  | _ => false

def isFunctionLike : SymbolKind → Bool
  | .function | .method => true
  | _ => false

/-- Symbols of the kind list members, bases and signatures: every type, and modules. -/
def hasMembers : SymbolKind → Bool
  | .module | .dynamicModule => true
  | kind => kind.isType

/-- A field against a method, in either order. -/
def collides : SymbolKind → SymbolKind → Bool
  | .field, .method | .method, .field => true
  | _, _ => false

end SymbolKind

inductive SymbolFlag where
  | exported
  | ambient
  | static
  | privateAccess
  | optional
  /-- A field with accessors. -/
  | accessor
  /-- The signature of the implementation. -/
  | definition
  /-- Made while types are resolved, not by a declaration. -/
  | synthesized
  /-- There from the start and never resolved anew. -/
  | wellKnown
  /-- A signature that a class constructor contributes. -/
  | constructor
  deriving DecidableEq, Repr

instance : Flag SymbolFlag where
  all := [.exported, .ambient, .static, .privateAccess, .optional, .accessor, .definition,
    .synthesized, .wellKnown, .constructor]
  name
    | .exported => "EXPORTED"
    | .ambient => "AMBIENT"
    | .static => "STATIC"
    | .privateAccess => "PRIVATE"
    | .optional => "OPTIONAL"
    | .accessor => "ACCESSOR"
    | .definition => "DEFINITION"
    | .synthesized => "SYNTHESIZED"
    | .wellKnown => "WELL_KNOWN"
    | .constructor => "CONSTRUCTOR"
  bit
    | .exported => 0
    | .ambient => 1
    | .static => 2
    | .privateAccess => 3
    | .optional => 4
    | .accessor => 5
    | .definition => 6
    | .synthesized => 7
    | .wellKnown => 8
    | .constructor => 9

/-- The flags of a symbol with the name of their sort, an empty set as the number nought. -/
def Flags.symbolText (s : Flags SymbolFlag) : String := "SymbolFlags(" ++ s.textOrZero ++ ")"

/-- What a name is expected to denote. -/
inductive Meaning where
  | type
  /-- A name before a full stop. -/
  | qualifier
  | value
  | any
  deriving DecidableEq, Repr, Inhabited

namespace Meaning

instance : Enumerated Meaning where
  all := [.type, .qualifier, .value, .any]
  name
    | .type => "Type"
    | .qualifier => "Namespace"
    | .value => "Value"
    | .any => "Any"

def admits : Meaning → SymbolKind → Bool
  | .type, kind => kind.isType || kind == .alias
  | .qualifier, .module | .qualifier, .dynamicModule | .qualifier, .alias => true
  | .qualifier, _ => false
  | .value, .module | .value, .dynamicModule | .value, .classType | .value, .function
  | .value, .method | .value, .field | .value, .variable | .value, .parameter
  | .value, .alias => true
  | .value, _ => false
  | .any, _ => true

/-- What a segment is expected to denote, from the segments after it: only the last one is held to
the meaning of the whole name. -/
def atSegment (meaning : Meaning) (rest : List String) : Meaning :=
  if rest.isEmpty then meaning else .qualifier

@[simp] theorem atSegment_nil (meaning : Meaning) : meaning.atSegment [] = meaning := rfl

@[simp] theorem atSegment_cons (meaning : Meaning) (segment : String) (rest : List String) :
    meaning.atSegment (segment :: rest) = .qualifier := rfl

end Meaning

end NameBinding
