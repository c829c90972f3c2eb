import NameBinding.Binding

/-! # The places of symbols

A declaration puts its symbols at places that the text of its document determines. Some places are
shared by all declarations of a name, and the others belong to one declaration. -/

namespace NameBinding

/-- How a symbol hangs on the one around it. -/
inductive Attachment where
  /-- By an edge back, and as a member if there is a membership. -/
  | member (membership : Option EdgeKind)
  /-- As the instance side of a class. -/
  | side
  | signature (kind : EdgeKind)
  | parameter
  deriving DecidableEq, Repr

/-- The place of a single declaration. -/
structure Spot where
  attachment : Attachment
  file : String
  /-- The number of the declaration in its document. -/
  index : Nat
  name : String
  kind : SymbolKind
  /-- The flags of the symbol, if they do not depend on other documents. -/
  flags : Option (Flags SymbolFlag)
  deriving DecidableEq, Repr

/-- Where a symbol stands. -/
inductive Place where
  /-- Outside of all symbols. -/
  | top
  /-- The declarations of one name and one kind inside an owner share a place. -/
  | shared (owner : Place) (name : String) (kind : SymbolKind)
  | single (owner : Place) (spot : Spot)
  deriving DecidableEq, Repr

namespace Place

def owner : Place → Place
  | top => top
  | shared owner _ _ => owner
  | single owner _ => owner

def name : Place → String
  | top => ""
  | shared _ name _ => name
  | single _ spot => spot.name

def kind? : Place → Option SymbolKind
  | top => none
  | shared _ _ kind => some kind
  | single _ spot => some spot.kind

/-- The instance side of the class at a place. -/
def instanceSide : Place → Place
  | single owner spot =>
    single (single owner spot) { spot with attachment := .side, kind := .instanceType }
  | _ => top

/-- The place of the instances, if a class stands here. -/
def instances? (q : Place) : Option Place :=
  if q.kind? == some .classType then some q.instanceSide else none

end Place

namespace Decl

/-- The place that a declaration is put below. -/
def ownerAt (d : Decl) (scope : Place) : Place :=
  if BindM.isInstanceMember d then scope.instances?.getD scope else scope

/-- How a declaration hangs its symbol on an owner. -/
def attachmentAt (d : Decl) (owner : Place) : Attachment :=
  .member (if d.name.isEmpty then none else owner.kind?.bind (BindM.membership? d))

def singleAt (d : Decl) (file : String) (owner : Place) (kind : SymbolKind) : Place :=
  .single owner ⟨d.attachmentAt owner, file, d.id.index, d.name, kind, some d.flags.toSymbolFlags⟩

/-- Only what has a name is shared. -/
def mergedAt (d : Decl) (file : String) (owner : Place) (kind : SymbolKind) : Place :=
  if d.name.isEmpty then d.singleAt file owner kind else .shared owner d.name kind

def signatureAt (d : Decl) (file : String) (owner : Place) (edge : EdgeKind)
    (flags : Option (Flags SymbolFlag)) : Place :=
  .single owner ⟨.signature edge, file, d.id.index, d.name, .signature, flags⟩

def parameterAt (d : Decl) (file : String) (signature : Place) : Place :=
  .single signature ⟨.parameter, file, d.id.index, d.name, .parameter,
    some (d.flags ∩ Flags.single .optional).toSymbolFlags⟩

/-- The field that a parameter with an access word makes. -/
def parameterFieldAt (d : Decl) (file : String) (inst : Place) : Place :=
  .single inst ⟨.member (some (if d.has .privateAccess then .privateProperty else .publicProperty)),
    file, d.id.index, d.name, .field, some d.flags.toSymbolFlags⟩

/-! ### What declarations contribute

Each declaration contributes to some places. They are listed with its number. -/

def argumentPlaces (file : String) (signature : Place) (fieldsOf : Option Place) (arg : Decl) :
    List (Nat × Place) :=
  (arg.id.index, arg.parameterAt file signature) ::
    match fieldsOf with
    | some inst =>
      if arg.has .publicAccess || arg.has .privateAccess then
        [(arg.id.index, arg.parameterFieldAt file inst)]
      else []
    | none => []

def signaturePlaces (d : Decl) (file : String) (args : List Decl) (fieldsOf : Option Place)
    (signature : Place) : List (Nat × Place) :=
  (d.id.index, signature) :: args.flatMap (argumentPlaces file signature fieldsOf)

end Decl

/-- What the declarations directly below one are put in. -/
inductive Opened where
  /-- They are not bound. -/
  | closed
  | scope (place : Place)
  deriving DecidableEq, Repr

namespace Decl

/-- The places that a declaration contributes to, and what is inside it. -/
abbrev Outcome := List (Nat × Place) × Opened

def functionKind (d : Decl) : SymbolKind :=
  match d.kind with
  | .method | .staticMethod => .method
  | _ => .function

/-- The kind of the symbol that a declaration is bound to. -/
def symbolKind? (d : Decl) : Option SymbolKind :=
  match d.kind with
  | .script => none
  | .module => some .module
  | .dynamicModule => some .dynamicModule
  | .interface => some .interface
  | .classDecl => some .classType
  | .function | .method | .staticMethod =>
    some (if d.has .constructor then .signature else d.functionKind)
  | .field | .staticField => some .field
  | .variable => some .variable
  | .import => some .alias
  | .callSignature | .constructSignature | .indexSignature => some .signature
  | .argument => some .parameter

section Outcome

variable (d : Decl) (file : String) (scope : Place) (args : List Decl)

def mergedOutcome (kind : SymbolKind) : Outcome :=
  let place := d.mergedAt file (d.ownerAt scope) kind
  ([(d.id.index, place)], .scope place)

def classOutcome : Outcome :=
  let place := d.singleAt file (d.ownerAt scope) .classType
  ([(d.id.index, place.instanceSide), (d.id.index, place)], .scope place)

def functionOutcome : Outcome :=
  let place := d.mergedAt file (d.ownerAt scope) d.functionKind
  ((d.id.index, place) ::
    d.signaturePlaces file args none (d.signatureAt file place .callSignature none), .scope place)

def constructorFlags : Flags SymbolFlag :=
  let flags := Flags.single SymbolFlag.constructor
  if d.has .implementation then flags.insert .definition else flags

def constructorOutcome : Outcome :=
  let place := d.signatureAt file scope .constructSignature (some d.constructorFlags)
  (d.signaturePlaces file args scope.instances? place, .scope place)

/-- The edge from the symbol around a signature among the members. -/
def signatureEdge : EdgeKind :=
  match d.kind with
  | .constructSignature => .constructSignature
  | .indexSignature => .indexSignature
  | _ => .callSignature

def memberSignatureOutcome : Outcome :=
  let owner := if d.kind = .constructSignature then scope else d.ownerAt scope
  let flags := if d.kind = .constructSignature then Flags.single SymbolFlag.constructor else ∅
  (d.signaturePlaces file args none (d.signatureAt file owner d.signatureEdge (some flags)),
    .closed)

def valueOutcome (kind : SymbolKind) : Outcome :=
  ([(d.id.index, d.singleAt file (d.ownerAt scope) kind)], .closed)

def outcome : Outcome :=
  match d.kind with
  | .script => ([], .scope scope)
  | .module => d.mergedOutcome file scope .module
  | .dynamicModule => d.mergedOutcome file scope .dynamicModule
  | .interface => d.mergedOutcome file scope .interface
  | .classDecl => d.classOutcome file scope
  | .function | .method | .staticMethod =>
    if d.has .constructor then d.constructorOutcome file scope args
    else d.functionOutcome file scope args
  | .field | .staticField =>
    if d.has .accessor then d.mergedOutcome file scope .field else d.valueOutcome file scope .field
  | .variable => d.valueOutcome file scope .variable
  | .import => d.valueOutcome file scope .alias
  | .callSignature | .constructSignature | .indexSignature => d.memberSignatureOutcome file scope args
  | .argument => ([], .closed)

end Outcome

end Decl

namespace CompilationUnit

/-- The parameters of a declaration. -/
def arguments (u : CompilationUnit) (d : Decl) : List Decl :=
  (d.children.filterMap u.decl?).filter (·.kind = .argument)

/-- What a declaration is put in, from what the declarations before it have inside. -/
def openedAround (opened : List Opened) (d : Decl) : Opened :=
  match d.parent with
  | some parent => opened[parent.index]?.getD .closed
  | none => .scope .top

def outcomeOf (u : CompilationUnit) (opened : List Opened) (d : Decl) : Decl.Outcome :=
  match openedAround opened d with
  | .closed => ([], .closed)
  | .scope scope => d.outcome u.path scope (u.arguments d)

def placesAfter (u : CompilationUnit) : List Opened → List Decl → List (Nat × Place)
  | _, [] => []
  | opened, d :: ds =>
    (u.outcomeOf opened d).1 ++ u.placesAfter (opened ++ [(u.outcomeOf opened d).2]) ds

/-- All places that the declarations of a unit contribute to. -/
def places (u : CompilationUnit) : List (Nat × Place) := u.placesAfter [] u.decls.toList

end CompilationUnit

namespace Program

/-- A declaration of the program contributes to a place. -/
def Contributes (p : Program) (d : DeclId) (q : Place) : Prop :=
  ∃ u ∈ p.units, u.id = d.unit ∧ (d.index, q) ∈ u.places

end Program

end NameBinding
