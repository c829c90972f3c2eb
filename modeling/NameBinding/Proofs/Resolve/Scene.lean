import NameBinding.Proofs.Bind.Sound
import NameBinding.Proofs.Resolve.Bound
import NameBinding.Proofs.Resolve.Demand
import NameBinding.Proofs.Tree.Below

/-! # Scenes

Resolving begins where only declarations made symbols and edges. From then on each symbol has an
origin: it was given, or it is the array type of some symbol, or it was made for the type of a given
symbol. Positions depend on what was resolved first and origins do not, so what holds in a scene is
said of origins. -/

namespace NameBinding

open SymbolGraph

namespace Setting

/-- A declaration with the document around it. -/
def site? (setting : Setting) (d : DeclId) : Option DeclSite :=
  (setting.program.unitById? d.unit).bind fun u => (u.decl? d).map fun x => ⟨x, u.tree, u.path⟩

/-- The place of the first declaration of a symbol. -/
def firstSite? (setting : Setting) (g : SymbolGraph) (x : SymbolId) : Option DeclSite :=
  (g.declarations x).head?.bind setting.site?

/-- The dotted name for which an alias is declared to stand. -/
def aliasPath (setting : Setting) (g : SymbolGraph) (a : SymbolId) : List String :=
  match setting.firstSite? g a with
  | some site => match site.tree.record? site.decl.node with
    | some (.importEquals i) =>
      if site.tree.kind? i.reference == some .externalModuleReference then []
      else site.tree.entityName i.reference
    | _ => []
  | none => []

/-- An entry among the bases of a type, and what is reported of one that is no object type. -/
inductive BaseEntry (setting : Setting) (g : SymbolGraph) (type : SymbolId) (site : DeclSite)
    (entry : NodeRef) : Nat → Prop
  | ofClass {cls : SymbolId} {d : DeclId} {c : ClassDecl}
      (hside : g.hasEdge ⟨cls, type, .instanceType⟩) (hd : d ∈ g.declarations cls)
      (hsite : setting.site? d = some site) (hc : site.tree.classDecl? site.decl.node = some c)
      (he : entry ∈ c.extended) : BaseEntry setting g type site entry Message.classBaseNotObject
  | ofInterface {d : DeclId} {i : InterfaceDecl} (hk : g.kind? type = some .interface)
      (hd : d ∈ g.declarations type) (hsite : setting.site? d = some site)
      (hi : site.tree.interfaceDecl? site.decl.node = some i) (he : entry ∈ i.extended) :
      BaseEntry setting g type site entry Message.interfaceBaseNotObject

/-- An entry among the bases of the first type names the second one. -/
def NamesBase (setting : Setting) (g : SymbolGraph) (type base : SymbolId) : Prop :=
  ∃ site entry notObject, setting.BaseEntry g type site entry notObject ∧
    ∃ r, ResolveM.heritageTarget setting site notObject entry ⟨g, []⟩ = .ok (some base) r

end Setting

/-- Where resolving begins. Aliases have ranks, by which those in the path of another alias come
before it, and no type is among its own bases. -/
structure Start where
  setting : Setting
  graph : SymbolGraph
  sound : Binding.Sound ⟨graph, setting.program⟩
  bound : ∀ {e : Edge}, graph.hasEdge e → e.kind.isStructural
  unmarked : ∀ x, ¬graph.isResolved x
  global : ∀ {name : String} {x : SymbolId}, x ∈ setting.program.globalSymbols name →
    x < graph.size
  count_le : WellKnown.count ≤ graph.size
  error : graph.kind? WellKnown.error = some .error
  sides : graph.OneSource .instanceType
  signatures : ∀ {x y : SymbolId}, graph.hasEdge ⟨x, y, .callSignature⟩ →
    graph.kind? y = some .signature
  parameters : ∀ {x y : SymbolId}, graph.hasEdge ⟨x, y, .parameter⟩ →
    graph.kind? y = some .parameter
  trees : ∀ u ∈ setting.program.units, u.tree.IsTree
  rank : SymbolId → Nat
  rank_lt : ∀ {a : SymbolId}, graph.kind? a = some .alias → rank a < Limits.aliasDepth
  ranked : ∀ {a c : SymbolId}, graph.kind? a = some .alias → graph.kind? c = some .alias →
    graph.declarations c ≠ [] → c ≠ a → graph.name c ∈ setting.aliasPath graph a → rank c < rank a
  grounded : ∀ x, ¬Relation.TransGen (setting.NamesBase graph) x x

/-- The symbol of an array type, from the name of its element type. -/
def Symbol.arrayType (name : String) : Symbol :=
  { name := name ++ "[]", kind := .array, flags := Flags.single .synthesized }

/-- Where a symbol comes from. -/
inductive Origin where
  | given (x : SymbolId)
  | array (element : Origin)
  /-- One of the symbols that are made for the type of a symbol. -/
  | made (owner : SymbolId) (turn : Nat)
  deriving DecidableEq

/-- What can hold in a scene. -/
inductive Fact where
  /-- A symbol that was not given. -/
  | symbol (origin : Origin) (label : Symbol)
  | edge (source : Origin) (kind : EdgeKind) (target : Origin)
  /-- A given symbol is resolved or is being resolved. -/
  | marked (x : SymbolId)
  | reported (d : Diagnostic)

/-- What was resolved so far, and where the symbols come from. -/
structure Scene where
  resolution : Resolution
  origin : SymbolId → Origin

namespace Scene

abbrev graph (s : Scene) : SymbolGraph := s.resolution.graph

abbrev diagnostics (s : Scene) : List Diagnostic := s.resolution.diagnostics

def setGraph (s : Scene) (graph : SymbolGraph) : Scene :=
  { s with resolution := { s.resolution with graph } }

/-- A symbol with an origin and a label. -/
structure Places (s : Scene) (x : SymbolId) (o : Origin) (label : Symbol) : Prop where
  lt_size : x < s.graph.size
  origin : s.origin x = o
  label? : s.graph.label? x = some label

namespace Places

variable {s : Scene} {x : SymbolId} {o : Origin} {label : Symbol}

theorem name (h : s.Places x o label) : s.graph.name x = label.name := by
  rw [name_eq, h.label?]
  rfl

theorem kind? (h : s.Places x o label) : s.graph.kind? x = some label.kind := by
  rw [kind?_eq, h.label?]
  rfl

end Places

end Scene

namespace Start

variable (b : Start)

/-- The number of given symbols. -/
abbrev size : Nat := b.graph.size

def Holds (s : Scene) : Fact → Prop
  | .symbol o label => ∃ x, b.size ≤ x ∧ s.origin x = o ∧ s.graph.label? x = some label
  | .edge o kind o' => ∃ x y, s.origin x = o ∧ s.origin y = o' ∧ s.graph.hasEdge ⟨x, y, kind⟩
  | .marked x => x < b.size ∧ s.graph.isResolved x
  | .reported d => d ∈ s.diagnostics

/-! ### Aliases -/

/-- What an alias stands for if it is resolved first. -/
def aliasValue (a : SymbolId) : SymbolId :=
  match ResolveM.resolveAlias b.setting a ⟨b.graph, []⟩ with
  | .ok value _ => value
  | .error .. => WellKnown.error

/-- What is reported if an alias is resolved first. -/
def aliasReports (a : SymbolId) : List Diagnostic :=
  match ResolveM.resolveAlias b.setting a ⟨b.graph, []⟩ with
  | .ok _ r | .error _ r => r.diagnostics

/-- What resolving aliases adds to a scene besides reports. -/
inductive AliasFact : Fact → Prop
  | marked {a : SymbolId} (ha : b.graph.kind? a = some .alias) : AliasFact (.marked a)
  | edge {a : SymbolId} (ha : b.graph.kind? a = some .alias) :
      AliasFact (.edge (.given a) .typedAs (.given (b.aliasValue a)))

/-! ### Scenes that resolving leads to -/

/-- The symbol with which the bases of a type are resolved. -/
def baseOwner (x : SymbolId) : SymbolId := (b.graph.classOfInstance? x).getD x

/-- The scene comes from the given symbols by resolving, and some symbols are still open: what is
being resolved, and what is being made. -/
structure Valid (opened : List SymbolId) (s : Scene) : Prop where
  resolves : b.graph.Resolves b.setting s.graph
  given : ∀ {x}, x < b.size → s.origin x = .given x
  injective : ∀ {x y}, x < s.graph.size → y < s.graph.size → s.origin x = s.origin y → x = y
  later : ∀ {x z}, b.size ≤ x → x < s.graph.size → s.origin x ≠ .given z
  array : ∀ {x y}, x < s.graph.size → y < s.graph.size →
    (s.graph.hasEdge ⟨x, y, .arrayOf⟩ ↔ s.origin x = .array (s.origin y))
  element : ∀ {x o}, x < s.graph.size → s.origin x = .array o → ∃ y < s.graph.size, s.origin y = o
  arrayLabel : ∀ {x y}, s.graph.hasEdge ⟨x, y, .arrayOf⟩ →
    s.graph.label? x = some (Symbol.arrayType (s.graph.name y))
  owned : ∀ {x z n}, x < s.graph.size → s.origin x = .made z n → s.graph.isResolved z
  typed : ∀ {e : Edge}, s.graph.hasEdge e → e.kind = .typedAs ∨ e.kind = .returnType →
    e.source ∉ opened ∧ (e.source < b.size → s.graph.isResolved e.source)
  based : ∀ {e : Edge}, s.graph.hasEdge e → e.kind = .extends ∨ e.kind = .implements →
    s.graph.isResolved (b.baseOwner e.source)
  aliased : ∀ {a}, b.graph.kind? a = some .alias → s.graph.isResolved a → a ∉ opened →
    s.graph.targets a .typedAs = [b.aliasValue a] ∧ b.aliasReports a ⊆ s.diagnostics
  opened_lt : ∀ x ∈ opened, x < s.graph.size ∧ (x < b.size → s.graph.isResolved x)

/-- The second scene has what the first one has and the new facts, and more only of aliases. -/
structure Leads (new : Set Fact) (s s' : Scene) : Prop where
  size_le : s.graph.size ≤ s'.graph.size
  origin : ∀ {x}, x < s.graph.size → s'.origin x = s.origin x
  label : ∀ {x}, x < s.graph.size → s'.graph.label? x = s.graph.label? x
  keeps : ∀ {f}, b.Holds s f → b.Holds s' f
  adds : ∀ {f}, f ∈ new → b.Holds s' f
  only : ∀ {f}, b.Holds s' f → b.Holds s f ∨ f ∈ new ∨ b.AliasFact f

variable {b} {opened : List SymbolId} {s s' s'' : Scene} {new new' : Set Fact} {x : SymbolId}

namespace Leads

theorem refl (h : ∀ f ∈ new, b.Holds s f) : b.Leads new s s where
  size_le := Nat.le_refl _
  origin _ := rfl
  label _ := rfl
  keeps hf := hf
  adds hf := h _ hf
  only hf := .inl hf

theorem trans (h : b.Leads new s s') (h' : b.Leads new' s' s'') : b.Leads (new ∪ new') s s'' where
  size_le := Nat.le_trans h.size_le h'.size_le
  origin hx := (h'.origin (Nat.lt_of_lt_of_le hx h.size_le)).trans (h.origin hx)
  label hx := (h'.label (Nat.lt_of_lt_of_le hx h.size_le)).trans (h.label hx)
  keeps hf := h'.keeps (h.keeps hf)
  adds hf := hf.elim (fun hf => h'.keeps (h.adds hf)) h'.adds
  only hf := by
    rcases h'.only hf with hf | hf | hf
    · exact (h.only hf).imp_right (Or.imp_left .inl)
    · exact .inr (.inl (.inr hf))
    · exact .inr (.inr hf)

/-- What only aliases add need not be counted. -/
theorem absorb (h : b.Leads new s s') (hsub : ∀ f ∈ new', f ∈ new)
    (hrest : ∀ f ∈ new, f ∈ new' ∨ b.AliasFact f) : b.Leads new' s s' where
  size_le := h.size_le
  origin := h.origin
  label := h.label
  keeps := h.keeps
  adds hf := h.adds (hsub _ hf)
  only hf := (h.only hf).imp_right fun hf => hf.elim (hrest _) .inr

theorem congr (h : b.Leads new s s') (hnew : ∀ f, f ∈ new' ↔ f ∈ new) : b.Leads new' s s' :=
  h.absorb (fun f => (hnew f).mp) fun f hf => .inl ((hnew f).mpr hf)

theorem name (h : b.Leads new s s') (hx : x < s.graph.size) :
    s'.graph.name x = s.graph.name x := name_congr (h.label hx)

theorem kind? (h : b.Leads new s s') (hx : x < s.graph.size) :
    s'.graph.kind? x = s.graph.kind? x := kind?_congr (h.label hx)

theorem places (h : b.Leads new s s') {o : Origin} {label : Symbol} (hx : s.Places x o label) :
    s'.Places x o label where
  lt_size := Nat.lt_of_lt_of_le hx.lt_size h.size_le
  origin := (h.origin hx.lt_size).trans hx.origin
  label? := (h.label hx.lt_size).trans hx.label?

theorem isResolved (h : b.Leads new s s') (hx : x < b.size) (hr : s.graph.isResolved x) :
    s'.graph.isResolved x := (h.keeps (f := .marked x) ⟨hx, hr⟩).2

end Leads

end Start

end NameBinding
