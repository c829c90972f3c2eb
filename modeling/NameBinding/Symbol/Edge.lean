import NameBinding.Symbol.Kind

/-! Typed, directed edges between symbols. -/

namespace NameBinding

/-- What an edge says, read as "source, kind, target". -/
inductive EdgeKind where
  /-- From a value to its type, or from an alias to what it names. -/
  | typedAs
  | contextuallyTypedAs
  /-- From the static side of a class to its instance side. -/
  | instanceType
  /-- From an array type to its element type. -/
  | arrayOf
  | publicProperty
  | privateProperty
  | staticProperty
  /-- From a member or a local to the symbol around it. -/
  | containedBy
  | extends
  | implements
  /-- From a signature to its parameters, in order. -/
  | parameter
  | returnType
  | callSignature
  | constructSignature
  | indexSignature
  deriving DecidableEq, Repr, Inhabited

namespace EdgeKind

instance : Enumerated EdgeKind where
  all := [.typedAs, .contextuallyTypedAs, .instanceType, .arrayOf, .publicProperty,
    .privateProperty, .staticProperty, .containedBy, .extends, .implements, .parameter,
    .returnType, .callSignature, .constructSignature, .indexSignature]
  name
    | .typedAs => "TypedAs"
    | .contextuallyTypedAs => "ContextuallyTypedAs"
    | .instanceType => "InstanceType"
    | .arrayOf => "ArrayOf"
    | .publicProperty => "PublicProperty"
    | .privateProperty => "PrivateProperty"
    | .staticProperty => "StaticProperty"
    | .containedBy => "ContainedBy"
    | .extends => "Extends"
    | .implements => "Implements"
    | .parameter => "Parameter"
    | .returnType => "ReturnType"
    | .callSignature => "CallSignature"
    | .constructSignature => "ConstructSignature"
    | .indexSignature => "IndexSignature"

/-- Edges from a container to a member. Each comes with a `containedBy` edge back. -/
def isMembership : EdgeKind → Bool
  | .publicProperty | .privateProperty | .staticProperty => true
  | _ => false

/-- Edges of which a symbol has at most one. -/
def isSingleValued : EdgeKind → Bool
  | .typedAs | .contextuallyTypedAs | .instanceType | .returnType => true
  | _ => false

/-- Edges that come from resolving names and not from declarations. -/
def isResolution : EdgeKind → Bool
  | .typedAs | .contextuallyTypedAs | .extends | .implements | .returnType => true
  | _ => false

def isSignature : EdgeKind → Bool
  | .callSignature | .constructSignature | .indexSignature => true
  | _ => false

end EdgeKind

structure Edge where
  source : SymbolId
  target : SymbolId
  kind : EdgeKind
  deriving DecidableEq, Repr, Inhabited

namespace Edge

/-- The edge from a member back to the container of a membership edge. -/
def backward (e : Edge) : Edge := ⟨e.target, e.source, .containedBy⟩

/-- The edge ends or starts at a symbol. -/
def touches (e : Edge) (id : SymbolId) : Bool := e.source == id || e.target == id

end Edge

end NameBinding
