import NameBinding.Tree.Basic

/-! Edits of a finished tree. Parents and spans stay as they are, so an edited tree can be
malformed in any way. -/

namespace NameBinding

/-- The parts of a record that name one node. -/
inductive Slot where
  | name
  | typeNode
  | initializer
  | body
  | reference
  | typeName
  | left
  | right
  deriving DecidableEq, Repr

namespace Pools

/-- The record in which a node of a kind has a slot. Names, type nodes and initializers of kinds
that have none belong to a property. -/
def slotSort? (kind : NodeKind) (slot : Slot) : Option RecordSort :=
  match kind.sort?, slot with
  | some .moduleDecl, _ | some .classDecl, _ | some .interfaceDecl, _ | some .importEquals, _
  | some .parameter, _ | some .function, _ => kind.sort?
  | _, .name | _, .typeNode | _, .initializer => some .property
  | sort?, _ => sort?

/-- Writes one slot of values: properties, variables and parameters. -/
def setValueSlot (r : NodeRef) (v : ValueParts) : Slot → ValueParts
  | .name => { v with name := r }
  | .typeNode => { v with typeNode := r }
  | .initializer => { v with initializer := r }
  | _ => v

def setFunctionSlot (r : NodeRef) (f : FunctionParts) : Slot → FunctionParts
  | .name => { f with name := r }
  | .typeNode => { f with typeNode := r }
  | .body => { f with body := r }
  | _ => f

def setNameSlot (r : NodeRef) (p : Pools) (i : Nat) : RecordSort → Pools
  | .moduleDecl => { p with modules := p.modules.modify i fun m => { m with name := r } }
  | .classDecl => { p with classes := p.classes.modify i fun c => { c with name := r } }
  | .interfaceDecl => { p with interfaces := p.interfaces.modify i fun d => { d with name := r } }
  | .importEquals =>
    { p with importEquals := p.importEquals.modify i fun d => { d with name := r } }
  | _ => p

/-- Writes a slot of the record at a place of a pool. Slots that the record does not have are not
written. -/
def setSlot (p : Pools) (s : RecordSort) (i : Nat) (slot : Slot) (r : NodeRef) : Pools :=
  match s, slot with
  | .function, _ => { p with functions := p.functions.modify i (setFunctionSlot r · slot) }
  | .parameter, _ => { p with parameters := p.parameters.modify i (setValueSlot r · slot) }
  | .property, _ => { p with properties := p.properties.modify i (setValueSlot r · slot) }
  | .importEquals, .reference =>
    { p with importEquals := p.importEquals.modify i fun d => { d with reference := r } }
  | .typeReference, .typeName => { p with typeReferences := p.typeReferences.modify i fun _ => r }
  | .qualifiedName, .left =>
    { p with qualifiedNames := p.qualifiedNames.modify i fun q => { q with left := r } }
  | .qualifiedName, .right =>
    { p with qualifiedNames := p.qualifiedNames.modify i fun q => { q with right := r } }
  | s, .name => setNameSlot r p i s
  | _, _ => p

end Pools

namespace DocTree

def modifyNode (t : DocTree) (r : NodeRef) (f : Node → Node) : DocTree :=
  match r with
  | some i => { t with nodes := t.nodes.modify i f }
  | none => t

/-- Writes into the record that a node points at, if it points at one. -/
def modifyPools (t : DocTree) (r : NodeRef) (f : Node → Nat → Pools → Pools) : DocTree :=
  match t.node? r with
  | some node => match node.data with
    | some i => { t with pools := f node i t.pools }
    | none => t
  | none => t

def setSlot (t : DocTree) (r : NodeRef) (slot : Slot) (value : NodeRef) : DocTree :=
  t.modifyPools r fun node i p => match Pools.slotSort? node.kind slot with
    | some s => p.setSlot s i slot value
    | none => p

/-- Writes the parameters of a node that has some. -/
def setParameters (t : DocTree) (r : NodeRef) (parameters : List NodeRef) : DocTree :=
  t.modifyPools r fun node i p =>
    if node.kind.isFunctionLike then
      { p with functions := p.functions.modify i fun f => { f with parameters } }
    else p

end DocTree

end NameBinding
